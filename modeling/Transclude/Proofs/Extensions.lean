import Transclude.Proofs.Dangling

/-!
# Extensions of settings

An extension may be written with blanks around it and with dots before it. What is looked for is the
rest, and it is taken out more than once: settings are read only if there is a rest, options show
the rest, and the check of a document and the scans take the rest of what the options show.

Taking it out once need not be enough. Where a blank stands directly behind the dots, it stands at
the beginning of the rest, and goes with the second time, with any dots behind it
(`normalizeExtension_normalizeExtension_iff`). The check and the scans still look for the same
extension, but it is not the one that the options show. And where there is nothing but dots on both
sides of the blanks, settings are read with which no scan can be made (`dotsApart_iff`).

Main statement:
- `Settings.extension_settles`: the options show the extension that is looked for exactly if no
  blank stands behind the dots, and then every scan can be made.
-/

namespace Transclude

/-! ## Taking out an extension twice -/

/-- Whether blanks, if any, then dots, and then another blank come first in an extension, and more
than blanks after it. -/
def BlankBehindDots (e : Text) : Prop :=
  ∃ (before dots : Text) (c : Char) (rest : Text), Text.allBlank before = true ∧
    dots ≠ [] ∧ (∀ d ∈ dots, d = '.') ∧ isBlank c = true ∧ Text.allBlank rest = false ∧
    e = before ++ dots ++ c :: rest

/-- Whether an extension is dots, blanks and dots again, with blanks around them, if any. -/
def DotsApart (e : Text) : Prop :=
  ∃ before dots gap more after : Text, Text.allBlank before = true ∧
    dots ≠ [] ∧ (∀ d ∈ dots, d = '.') ∧ gap ≠ [] ∧ Text.allBlank gap = true ∧
    more ≠ [] ∧ (∀ d ∈ more, d = '.') ∧ Text.allBlank after = true ∧
    e = before ++ dots ++ gap ++ more ++ after

section

variable {e x dots : Text}

/-- Dots are no blanks, so of `dots ++ x` only the text `x` behind the dots matters for what is
trimmed, and its beginning only if there are no dots. -/
theorem isTrimmed_dots_append_iff (hdots : ∀ d ∈ dots, d = '.') :
    Text.IsTrimmed (dots ++ x) ↔
      (dots = [] → ∀ c ∈ x.head?, isBlank c = false) ∧ ∀ c ∈ x.getLast?, isBlank c = false := by
  cases dots with
  | nil => exact ⟨fun h => ⟨fun _ => h.head, h.last⟩, fun h => ⟨h.1 rfl, h.2⟩⟩
  | cons d dots =>
    constructor
    · intro h
      refine ⟨fun hnil => absurd hnil (List.cons_ne_nil _ _), fun c hc => h.last c ?_⟩
      rw [List.getLast?_append, hc]
      rfl
    · intro ⟨_, hlast⟩
      refine ⟨fun c hc => ?_, fun c hc => ?_⟩
      · obtain rfl := Option.some.inj hc
        rw [hdots d List.mem_cons_self]
        decide
      · rcases List.mem_append.1 (List.mem_of_mem_getLast? hc) with hmem | hmem
        · rw [hdots c hmem]
          decide
        · rw [List.getLast?_append_of_ne_nil _ (List.ne_nil_of_mem hmem)] at hc
          exact hlast c hc

/-- **The parts of an extension**: what is left of `e`, which is `x`, has blanks and then dots
before it, and blanks behind it, and no more of them can be taken away. -/
theorem normalizeExtension_eq_iff :
    normalizeExtension e = x ↔
      (∀ c ∈ x.head?, c ≠ '.') ∧ (∀ c ∈ x.getLast?, isBlank c = false) ∧
        ∃ before dots after : Text, Text.allBlank before = true ∧ (∀ d ∈ dots, d = '.') ∧
          (dots = [] → ∀ c ∈ x.head?, isBlank c = false) ∧ Text.allBlank after = true ∧
          e = before ++ dots ++ x ++ after := by
  rw [normalizeExtension, Text.dropWhile_eq_iff]
  simp only [decide_eq_false_iff_not, decide_eq_true_eq, Text.trim_eq_iff]
  refine and_congr_right fun _ => ⟨?_, ?_⟩
  · intro ⟨dots, hdots, htrimmed, before, after, hbefore, hafter, he⟩
    obtain ⟨hhead, hlast⟩ := (isTrimmed_dots_append_iff hdots).1 htrimmed
    exact ⟨hlast, before, dots, after, hbefore, hdots, hhead, hafter, by simpa using he⟩
  · intro ⟨hlast, before, dots, after, hbefore, hdots, hhead, hafter, he⟩
    exact ⟨dots, hdots, (isTrimmed_dots_append_iff hdots).2 ⟨hhead, hlast⟩, before, after, hbefore,
      hafter, by simpa using he⟩

/-- An extension stays as it is under `normalizeExtension` if it begins neither with a dot nor with
a blank, and does not end with a blank. -/
theorem normalizeExtension_eq_self_iff :
    normalizeExtension x = x ↔ (∀ c ∈ x.head?, c ≠ '.') ∧ Text.IsTrimmed x := by
  rw [normalizeExtension_eq_iff]
  refine and_congr_right fun _ => ⟨?_, fun htrimmed => ?_⟩
  · intro ⟨hlast, before, dots, after, _, _, hhead, _, hx⟩
    -- nothing can stand around a text that is as long as the whole
    have hlength := congrArg List.length hx
    simp only [List.length_append] at hlength
    exact ⟨hhead (List.eq_nil_of_length_eq_zero (by omega)), hlast⟩
  · exact ⟨htrimmed.last, [], [], [], rfl, List.forall_mem_nil _, fun _ => htrimmed.head, rfl,
      by simp⟩

/-- What a blank `c` behind the dots leaves: itself, and the rest without the blanks at its end. -/
theorem normalizeExtension_of_blank {before rest : Text} {c : Char}
    (hbefore : Text.allBlank before = true) (hne : dots ≠ []) (hdots : ∀ d ∈ dots, d = '.')
    (hc : isBlank c = true) (hrest : Text.allBlank rest = false) :
    normalizeExtension (before ++ dots ++ c :: rest) = c :: Text.trimEnd rest := by
  obtain ⟨hlast, after, hafter, hsplit⟩ := Text.trimEnd_eq_iff.1 (rfl : Text.trimEnd rest = _)
  have hkept : Text.trimEnd rest ≠ [] := by
    intro hnil
    rw [Text.trimEnd_eq_nil.1 hnil] at hrest
    cases hrest
  refine normalizeExtension_eq_iff.2 ⟨?_, ?_, before, dots, after, hbefore, hdots,
    fun hnil => absurd hnil hne, hafter, ?_⟩
  · intro d hd hdot
    obtain rfl := Option.some.inj hd
    rw [hdot] at hc
    exact absurd hc (by decide)
  · intro d hd
    rw [List.getLast?_cons_of_ne_nil hkept] at hd
    exact hlast d hd
  · rw [List.append_assoc (before ++ dots), List.cons_append, ← hsplit]

/-- A blank comes first in what is left of an extension `e` exactly where one stood behind the
dots. -/
theorem blankBehindDots_iff :
    BlankBehindDots e ↔ ∃ c ∈ (normalizeExtension e).head?, isBlank c = true := by
  constructor
  · intro ⟨before, dots, c, rest, hbefore, hne, hdots, hc, hrest, he⟩
    refine ⟨c, ?_, hc⟩
    rw [he, normalizeExtension_of_blank hbefore hne hdots hc hrest]
    rfl
  · intro ⟨c, hhead, hc⟩
    obtain ⟨-, hlast, before, dots, after, hbefore, hdots, hfirst, -, he⟩ :=
      normalizeExtension_eq_iff.1 (rfl : normalizeExtension e = _)
    obtain ⟨rest, hleft⟩ := List.head?_eq_some_iff.1 hhead
    rw [hleft] at hlast hfirst he
    refine ⟨before, dots, c, rest ++ after, hbefore, fun hnil => ?_, hdots, hc, ?_,
      by simpa using he⟩
    · exact Bool.false_ne_true ((hfirst hnil c rfl).symm.trans hc)
    · -- what is left does not end with a blank, so that it does not end with `c`
      have hd := hlast _ (List.getLast?_eq_some_getLast (List.cons_ne_nil c rest))
      refine Text.allBlank_eq_false_iff.2 ⟨_, List.mem_append_left _ ?_, hd⟩
      refine (List.mem_cons.1 (List.getLast_mem _)).resolve_left fun hsame => ?_
      rw [hsame, hc] at hd
      cases hd

/-- **A second time takes more away** exactly where a blank stands behind the dots
(`BlankBehindDots`), and there it takes away at least that blank. -/
theorem normalizeExtension_normalizeExtension_iff :
    normalizeExtension (normalizeExtension e) = normalizeExtension e ↔ ¬BlankBehindDots e := by
  obtain ⟨hhead, hlast, -⟩ := normalizeExtension_eq_iff.1 (rfl : normalizeExtension e = _)
  rw [normalizeExtension_eq_self_iff, blankBehindDots_iff]
  constructor
  · intro ⟨_, htrimmed⟩ ⟨c, hc, hblank⟩
    exact Bool.false_ne_true ((htrimmed.head c hc).symm.trans hblank)
  · intro hnone
    exact ⟨hhead, fun c hc => Bool.eq_false_iff.2 fun hblank => hnone ⟨c, hc, hblank⟩, hlast⟩

/-- **A second time takes all away** exactly where only blanks stand between dots (`DotsApart`),
while the first time leaves something. -/
theorem dotsApart_iff :
    DotsApart e ↔ normalizeExtension e ≠ [] ∧ normalizeExtension (normalizeExtension e) = [] := by
  constructor
  · intro ⟨before, dots, gap, more, after, hbefore, hdots, hdot, hgap, hblank, hmore, hdot', hafter,
      he⟩
    have hleft : normalizeExtension e = gap ++ more := by
      refine normalizeExtension_eq_iff.2 ⟨fun d hd hsame => ?_, fun d hd => ?_, before, dots, after,
        hbefore, hdot, fun hnil => absurd hnil hdots, hafter, by simpa using he⟩
      · rw [List.head?_append_of_ne_nil _ hgap] at hd
        have hd' := Text.allBlank_eq_true_iff.1 hblank d (List.mem_of_mem_head? hd)
        rw [hsame] at hd'
        exact absurd hd' (by decide)
      · rw [List.getLast?_append_of_ne_nil _ hmore] at hd
        rw [hdot' d (List.mem_of_mem_getLast? hd)]
        decide
    have hnone : normalizeExtension (gap ++ more) = [] :=
      normalizeExtension_eq_iff.2 ⟨by simp, by simp, gap, more, [], hblank, hdot', by simp, rfl,
        by simp⟩
    rw [hleft]
    exact ⟨List.append_ne_nil_of_left_ne_nil hgap _, hnone⟩
  · intro ⟨hleft, hnone⟩
    obtain ⟨hhead, hlast, before, dots, after, hbefore, hdot, hfirst, hafter, he⟩ :=
      normalizeExtension_eq_iff.1 (rfl : normalizeExtension e = _)
    obtain ⟨-, -, gap, more, rest, hblank, hdot', -, hrest, hx⟩ :=
      normalizeExtension_eq_iff.1 hnone
    rw [List.append_nil] at hx
    rw [hx] at hleft hhead hlast hfirst he
    -- what is left ends with no blank and begins with no dot, so its blanks are in between
    obtain rfl := Text.eq_nil_of_getLast?_append hrest hlast
    rw [List.append_nil] at hleft hhead hlast hfirst he
    have hmore : more ≠ [] := by
      rintro rfl
      rw [List.append_nil, ← List.nil_append gap] at hlast
      exact hleft (by rw [Text.eq_nil_of_getLast?_append hblank hlast]; rfl)
    have hgap : gap ≠ [] := by
      rintro rfl
      obtain ⟨d, more, rfl⟩ := List.exists_cons_of_ne_nil hmore
      exact hhead d rfl (hdot' d List.mem_cons_self)
    have hdots : dots ≠ [] := fun hnil => hgap (Text.eq_nil_of_head?_append hblank (hfirst hnil))
    exact ⟨before, dots, gap, more, after, hbefore, hdots, hdot, hgap, hblank, hmore, hdot', hafter,
      by simpa using he⟩

end

/-! ## What is looked for -/

namespace Scan

variable {w : Workspace}

/-- What ends a walk is in the tree, and not in its options: no validation fails there. -/
theorem visit_ne_validation (accepts : Path → Bool) (excluded : Path → Bool → Bool)
    (listed : List Route) (files : List Path) (pending : List (Path × Depth)) (cause : Invalid) :
    (visit w accepts excluded listed files pending).result ≠ .error (.validation cause) := by
  intro h
  fun_induction visit w accepts excluded listed files pending with
  | case1 => cases h
  | case2 => cases h
  | case3 => cases h
  | case4 _ _ _ _ _ _ _ _ _ _ _ _ ih => exact ih h
  | case5 => cases h

/-- Only without an extension is a scan refused for it. -/
theorem files_eq_emptyExtension_iff {root : Path} {depth : Depth} {o : ScanOptions} :
    files w root depth o = .error (.validation .emptyExtension) ↔ o.extension = [] := by
  refine ⟨fun h => ?_, fun h => by rw [files, if_pos h]⟩
  by_contra hne
  rw [files, if_neg hne] at h
  split at h
  · cases h
  · cases hrules : ExcludeRules.ofLines root o.exclude with
    | error e =>
      obtain ⟨cause, rfl⟩ := exists_of_ofLines_error hrules
      rw [hrules] at h
      cases h
    | ok rules =>
      rw [hrules] at h
      exact visit_ne_validation _ _ _ _ _ _ h

end Scan

namespace Workspace

variable {w : Workspace} {p : Path} {o : RenderOptions}

/-- A document that the scans of `o` would match passes the check for its extension. -/
theorem checkFile_of_matchesFile (h : w.isFile p = true) (hmatch : o.scan.matchesFile p = true) :
    ∃ q, w.checkFile p o.extension = .ok q := by
  have hsame : (ScanOptions.ofExtension o.extension).matchesFile p = true := hmatch
  cases hp : w.resolve p with
  | error fault => cases h.symm.trans (isFile_of_resolve_error hp)
  | ok r => exact ⟨.ofRoute r, by simp [checkFile, h, hsame, hp]⟩

/-- A document that the scans of `o` would not match fails the check, and the error names the
extension that the scans look for. -/
theorem checkFile_of_not_matchesFile (h : w.isFile p = true)
    (hmatch : o.scan.matchesFile p = false) : w.checkFile p o.extension =
      .error (.validation (.otherExtension p.text o.scan.extension)) := by
  have hsame : (ScanOptions.ofExtension o.extension).matchesFile p = false := hmatch
  simp [checkFile, h, hsame]
  rfl

end Workspace

namespace Settings

/-- What the extension of settings comes to, in the options that they give. -/
structure LooksFor (s : Settings) : Prop where
  /-- A file is taken for a document if the scans would list it. -/
  taken : ∀ {w : Workspace} {p : Path}, w.isFile p = true →
    (RenderOptions.ofSettings s).scan.matchesFile p = true →
    ∃ q, w.checkFile p (RenderOptions.ofSettings s).extension = .ok q
  /-- Any other file is refused, for want of the extension that they look for. -/
  refused : ∀ {w : Workspace} {p : Path}, w.isFile p = true →
    (RenderOptions.ofSettings s).scan.matchesFile p = false →
    w.checkFile p (RenderOptions.ofSettings s).extension =
      .error (.validation (.otherExtension p.text (RenderOptions.ofSettings s).scan.extension))
  /-- The options show this extension exactly if no blank stands behind the dots. -/
  shown : (RenderOptions.ofSettings s).scan.extension = (RenderOptions.ofSettings s).extension ↔
    ¬BlankBehindDots s.extension
  /-- Then all scans can be made. -/
  usable : ¬BlankBehindDots s.extension → ∀ (w : Workspace) (root : Path) (depth : Depth),
    Scan.files w root depth (RenderOptions.ofSettings s).scan ≠ .error (.validation .emptyExtension)
  /-- Those that cannot be made have nothing but blanks between dots. -/
  unusable : ∀ (w : Workspace) (root : Path) (depth : Depth),
    Scan.files w root depth (RenderOptions.ofSettings s).scan =
      .error (.validation .emptyExtension) ↔ DotsApart s.extension

/-- Settings are read (`parse`) only if an extension is left, after it was normalized once. -/
theorem normalizeExtension_ne_nil {t : Text} {s : Settings} (h : parse t = .ok s) :
    normalizeExtension s.extension ≠ [] := by
  unfold parse at h
  split at h
  · cases h
  · split at h
    · cases h
    · next hne =>
      obtain rfl := Except.ok.inj h
      exact hne

/-- **An extension settles**, so that taking it out again changes nothing, exactly if no blank
stands behind its dots. With settings that are read, the scans and the check of a document look for
the same extension (`LooksFor`); if it settles, it is the one that the options show, and every scan
can be made. -/
theorem extension_settles (e : Text) :
    (normalizeExtension (normalizeExtension e) = normalizeExtension e ↔ ¬BlankBehindDots e) ∧
      ∀ {t : Text} {s : Settings}, parse t = .ok s → s.LooksFor := by
  refine ⟨normalizeExtension_normalizeExtension_iff, fun {t s} h => ?_⟩
  have hleft := normalizeExtension_ne_nil h
  have hscan : (RenderOptions.ofSettings s).scan.extension =
      normalizeExtension (normalizeExtension s.extension) := rfl
  refine ⟨Workspace.checkFile_of_matchesFile, Workspace.checkFile_of_not_matchesFile,
    normalizeExtension_normalizeExtension_iff, fun hnone w root depth hfiles => ?_,
    fun w root depth => ?_⟩
  · rw [Scan.files_eq_emptyExtension_iff, hscan,
      normalizeExtension_normalizeExtension_iff.2 hnone] at hfiles
    exact hleft hfiles
  · rw [Scan.files_eq_emptyExtension_iff, hscan, dotsApart_iff, and_iff_right hleft]

/-- A text of settings with nothing but an extension, which needs no escapes. -/
def extensionText (e : Text) : Text := "extension = \"".toList ++ e ++ ['"']

/-- Settings with nothing but an extension. -/
def ofExtension (e : Text) : Settings := { default with extension := e }

/-- A directory with one document. -/
def documents : Workspace := ⟨⟨[([.ofString "a.t.md"], .file ⟨.text [], 0o644⟩)]⟩, []⟩

/-- With an extension that settles the document is taken, and the scan is made. -/
theorem extension_settles_dotted :
    parse (extensionText " ..t.md ".toList) = .ok (ofExtension " ..t.md ".toList) ∧
      (∃ q, documents.checkFile (.ofString "a.t.md")
        (RenderOptions.ofSettings (ofExtension " ..t.md ".toList)).extension = .ok q) ∧
      (RenderOptions.ofSettings (ofExtension " ..t.md ".toList)).extension = "t.md".toList ∧
      (RenderOptions.ofSettings (ofExtension " ..t.md ".toList)).scan.extension =
        (RenderOptions.ofSettings (ofExtension " ..t.md ".toList)).extension ∧
      Scan.files documents .dot .unlimited
        (RenderOptions.ofSettings (ofExtension " ..t.md ".toList)).scan ≠
          .error (.validation .emptyExtension) := by
  have hread : parse (extensionText " ..t.md ".toList) = .ok (ofExtension " ..t.md ".toList) :=
    Fill.eq_ok_of_toOption (by decide +kernel)
  have hnone : ¬BlankBehindDots (ofExtension " ..t.md ".toList).extension :=
    normalizeExtension_normalizeExtension_iff.1 (by decide)
  have hlooks := (extension_settles " ..t.md ".toList).2 hread
  exact ⟨hread, hlooks.taken (by decide +kernel) (by decide +kernel), by decide,
    hlooks.shown.2 hnone, hlooks.usable hnone _ _ _⟩

/-- **Settings are read with an extension that does not settle**: with `. md` the options show
another than the scans look for, and with `. .` there is none left for the scans, and they cannot be
made. -/
theorem extension_not_settled :
    (normalizeExtension (normalizeExtension ". md".toList) ≠ normalizeExtension ". md".toList ∧
      parse (extensionText ". md".toList) = .ok (ofExtension ". md".toList) ∧
      (RenderOptions.ofSettings (ofExtension ". md".toList)).extension = " md".toList ∧
      (RenderOptions.ofSettings (ofExtension ". md".toList)).scan.extension = "md".toList) ∧
    (parse (extensionText ". .".toList) = .ok (ofExtension ". .".toList) ∧
      (RenderOptions.ofSettings (ofExtension ". .".toList)).extension = " .".toList ∧
      Scan.files documents .dot .unlimited
        (RenderOptions.ofSettings (ofExtension ". .".toList)).scan =
          .error (.validation .emptyExtension)) :=
  ⟨⟨by decide, Fill.eq_ok_of_toOption (by decide +kernel), by decide, by decide⟩,
    Fill.eq_ok_of_toOption (by decide +kernel), by decide,
    Scan.files_eq_emptyExtension_iff.2 (by decide)⟩

end Settings

end Transclude
