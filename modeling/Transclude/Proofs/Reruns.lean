import Transclude.Proofs.Settles
import Transclude.Proofs.Updates
import Transclude.Proofs.Branches

/-!
# A second update changes nothing

An update writes over its own file, and the next update reads what it wrote: as the document that
it renders, and among the files from which it collects variables and references. Where paths lead
is not changed by that (`Workspace.resolve_withFile`), so the same files are read. If the document
settles (`Fill.Settles`), then the file that was written declares the same variables, holds the same
references, and shows them already.

Main statement: `Update.file_twice`, the next update finds nothing to change.
-/

namespace Transclude

/-! ## Writing over a file -/

section

variable {t : Tree} {r : Route} {f : File} (hf : t.node? r = some (.file f)) (g : File)

include hf

/-- The way of steps is the same with another file `g` in place of `f`: the file is no directory
before and after. -/
theorem Tree.take_put_file (atLink : Route → List Path.Step → Except Fault Route) (base : Route)
    (steps : List Path.Step) :
    (t.put r (.file g)).take atLink base steps = t.take atLink base steps := by
  have hr : r ≠ [] := ne_nil_of_node? hf (by simp)
  induction steps generalizing base with
  | nil => rfl
  | cons step steps ih =>
    cases step with
    | here => exact ih base
    | up => exact ih base.dropLast
    | down name =>
      rw [take, take, node?_put hr]
      by_cases hq : base ++ [name] = r
      · rw [if_pos hq, hq, hf]
      · rw [if_neg hq, ih]

theorem Tree.reach_put_file (links : Nat) (base : Route) (steps : List Path.Step) :
    (t.put r (.file g)).reach links base steps = t.reach links base steps := by
  induction links generalizing base steps with
  | zero => exact take_put_file hf g _ base steps
  | succ links ih =>
    rw [reach, reach, take_put_file hf g, show (t.put r (.file g)).reach links = t.reach links from
      funext fun base => funext fun steps => ih base steps]

theorem Tree.isSome_put_file (q : Route) :
    ((t.put r (.file g)).node? q).isSome = (t.node? q).isSome := by
  rw [node?_put (ne_nil_of_node? hf (by simp))]
  split
  · next hq => rw [hq, hf]; rfl
  · rfl

/-- Steps lead where they did before the file was written. -/
theorem Tree.follow_put_file (links : Nat) (base : Route) (steps : List Path.Step) :
    (t.put r (.file g)).follow links base steps = t.follow links base steps := by
  rw [follow, follow, reach_put_file hf g]
  cases t.reach links base steps with
  | error fault => rfl
  | ok q =>
    dsimp only
    rw [isSome_put_file hf g]

/-- The names of the entries are the same in every directory. -/
theorem Tree.names_put_file (q : Route) : (t.put r (.file g)).names q = t.names q := by
  have hmem : r ∈ t.nodes.map Prod.fst :=
    (mem_routes_iff (ne_nil_of_node? hf (by simp))).2 (by rw [hf]; rfl)
  have hroutes : (t.put r (.file g)).nodes.map Prod.fst = t.nodes.map Prod.fst := by
    rw [put, map_fst_putNode, if_pos hmem]
  have hfound (u : Tree) : u.found q =
      (u.nodes.map Prod.fst).filterMap fun s => if s.dropLast = q then s.getLast? else none := by
    rw [found, List.filterMap_map]
    rfl
  have hsame : (t.put r (.file g)).found q = t.found q := by rw [hfound, hfound, hroutes]
  exact congrArg (fun l : List Bytes => l.mergeSort) hsame

end

namespace Workspace

section

variable {w : Workspace} {r : Route} {f : File} (hf : w.tree.node? r = some (.file f)) (g : File)

include hf

/-- **Paths lead where they did** before the file was written. -/
theorem resolve_withFile (p : Path) : (w.withFile r g).resolve p = w.resolve p := by
  rw [resolve, resolve]
  split
  · rfl
  · exact Tree.follow_put_file hf g maxLinks (w.startOf p) p.steps

/-- A path leads to the new file, where it led to the old one, or to what it led to. -/
theorem node?_path_withFile (p : Path) :
    (w.withFile r g).node? p = w.node? p ∨
      (w.withFile r g).node? p = some (.file g) ∧ w.node? p = some (.file f) := by
  rw [Workspace.node?, Workspace.node?, resolve_withFile hf g]
  cases w.resolve p with
  | error fault => exact .inl rfl
  | ok q =>
    dsimp only
    rw [node?_withFile (Tree.ne_nil_of_node? hf (by simp))]
    by_cases hq : q = r
    · rw [if_pos hq, hq]
      exact .inr ⟨rfl, hf⟩
    · rw [if_neg hq]
      exact .inl rfl

theorem isDirectory_withFile (p : Path) : (w.withFile r g).isDirectory p = w.isDirectory p := by
  rcases node?_path_withFile hf g p with h | ⟨h, h'⟩
  · simp only [isDirectory, h]
  · simp [isDirectory, h, h']

theorem isFile_withFile (p : Path) : (w.withFile r g).isFile p = w.isFile p := by
  rcases node?_path_withFile hf g p with h | ⟨h, h'⟩
  · simp only [isFile, h]
  · simp only [isFile, h, h']

theorem checkFile_withFile (p : Path) (extension : Text) :
    (w.withFile r g).checkFile p extension = w.checkFile p extension := by
  rw [checkFile, checkFile, isFile_withFile hf g, resolve_withFile hf g]

/-- What is read is the new file, where `p` leads to it, or what was read before. -/
theorem read_withFile {t : Text} {mode : Nat} (p : Path) :
    (w.withFile r ⟨.text t, mode⟩).read p = w.read p ∧ w.resolve p ≠ .ok r ∨
      (w.withFile r ⟨.text t, mode⟩).read p = .ok (.ofText t) ∧ w.resolve p = .ok r := by
  rw [read, read, readText, readText, resolve_withFile hf ⟨.text t, mode⟩]
  cases w.resolve p with
  | error fault => exact .inl ⟨rfl, by simp⟩
  | ok q =>
    dsimp only
    rw [node?_withFile (Tree.ne_nil_of_node? hf (by simp))]
    by_cases hq : q = r
    · rw [if_pos hq, hq]
      exact .inr ⟨rfl, rfl⟩
    · rw [if_neg hq]
      exact .inl ⟨rfl, fun h => hq (Except.ok.inj h)⟩

/-- A scan finds the same files, and all of them. -/
theorem agree_withFile (accepts : Path → Bool) (excluded : Path → Bool → Bool) :
    Scan.Agree w (w.withFile r g) accepts excluded fun _ => true := by
  have hentries (dir : Path) (q : Route) :
      Scan.entries (w.withFile r g) excluded dir q = Scan.entries w excluded dir q := by
    rw [Scan.entries, Scan.entries, withFile, Tree.names_put_file hf g]
    congr 1
    funext p
    exact congrArg (fun b => !excluded p b) (isDirectory_withFile hf g p)
  have hdirectory := isDirectory_withFile hf g
  refine ⟨hdirectory, fun p _ => resolve_withFile hf g p, fun dir q _ _ => ?_,
    fun dir q _ _ => ?_⟩
  · rw [Scan.collected, Scan.collected, hentries]
    simp only [hdirectory]
  · rw [Scan.entered, Scan.entered, hentries, funext hdirectory]

theorem files_withFile (root : Path) (depth : Depth) (options : ScanOptions) :
    Scan.files (w.withFile r g) root depth options = Scan.files w root depth options := by
  have hkeep (x : Except Error (List Path)) : x.map (List.filter fun _ => true) = x := by
    cases x with
    | error e => rfl
    | ok ps => rw [Except.map, List.filter_eq_self.2 fun _ _ => rfl]
  rw [← hkeep (Scan.files w root depth options), ← hkeep (Scan.files _ root depth options)]
  exact Scan.files_congr (isDirectory_withFile hf g root) fun _ _ => agree_withFile hf g _ _

end

end Workspace

/-- What a scan collects, if each file adds what it added before. `R` relates what was collected
before to what is collected now. -/
theorem Scan.collectAll_rel {w w' : Workspace}
    {collect : Text → Bindings → Except Error Bindings} {R : Bindings → Bindings → Prop}
    {ps : List Path}
    (h : ∀ p ∈ ps, ∀ d, w.read p = .ok d → ∃ d', w'.read p = .ok d' ∧ ∀ found found' out,
      R found found' → collect (Text.unifyLineEnds d.text) found = .ok out →
        ∃ out', collect (Text.unifyLineEnds d'.text) found' = .ok out' ∧ R out out')
    {found found' out : Bindings} (hfound : R found found')
    (hcollect : collectAll w collect ps found = .ok out) :
    ∃ out', collectAll w' collect ps found' = .ok out' ∧ R out out' := by
  induction ps generalizing found found' with
  | nil =>
    cases hcollect
    exact ⟨found', rfl, hfound⟩
  | cons p ps ih =>
    rw [collectAll] at hcollect
    obtain ⟨d, hread, hcollect⟩ := bind_eq_ok.1 hcollect
    obtain ⟨between, hfile, hrest⟩ := bind_eq_ok.1 hcollect
    obtain ⟨d', hread', hsame⟩ := h p List.mem_cons_self d hread
    obtain ⟨between', hfile', hbetween⟩ := hsame found found' between hfound hfile
    obtain ⟨out', hrest', hout⟩ := ih (fun q hq => h q (List.mem_cons_of_mem _ hq)) hbetween hrest
    rw [collectAll]
    exact ⟨out', bind_eq_ok.2 ⟨d', hread', bind_eq_ok.2 ⟨between', hfile', hrest'⟩⟩, hout⟩

/-- A document is read back from what is written of it, if its text begins as it did. Otherwise a
mark could appear at its beginning. -/
theorem Document.ofText_fileText {d : Document} {t t' : Text} (hd : d = .ofText t)
    (ht : t'.head? = d.text.head?) :
    Document.ofText ({ d with text := t' } : Document).fileText = { d with text := t' } := by
  subst hd
  cases t with
  | nil =>
    obtain rfl : t' = [] := List.head?_eq_none_iff.1 ht
    rfl
  | cons c t =>
    by_cases hc : c = mark
    · simp [ofText, hc, fileText]
    · simp only [ofText, hc, if_false] at ht ⊢
      obtain ⟨u, rfl⟩ : ∃ u, t' = c :: u := by
        cases t' with
        | nil => cases ht
        | cons e u => exact ⟨u, by rw [Option.some.inj ht]⟩
      simp [fileText, hc]

namespace Render

/-- The document that is rendered by the path `p`, and what is filled in. -/
structure Uses (w : Workspace) (p : Path) (o : RenderOptions) (path : Path) (d : Document)
    (vars refs : Bindings) : Prop where
  checked : w.checkFile p o.extension = .ok path
  read : w.read path = .ok d
  vars : Scan.varsAround w path o.depthUp o.depthDown o.scan = .ok vars
  refs : Scan.refsAround w path o.depthUp o.depthDown o.scan = .ok refs

/-- The steps of filling: the variables in scope, then the references in scope, each filled in. -/
theorem fill_eq_ok_iff {w : Workspace} {o : RenderOptions} {path : Path} {t t'' : Text} :
    fill w o path t = .ok t'' ↔
      ∃ vars refs t', Scan.varsAround w path o.depthUp o.depthDown o.scan = .ok vars ∧
        Fill.vars t vars o.strict = .ok t' ∧
        Scan.refsAround w path o.depthUp o.depthDown o.scan = .ok refs ∧
        Fill.refs t' refs o.strict = .ok t'' := by
  rw [fill, bind_eq_ok]
  constructor
  · rintro ⟨vars, hvars, h⟩
    obtain ⟨t', ht', h⟩ := bind_eq_ok.1 h
    obtain ⟨refs, hrefs, h⟩ := bind_eq_ok.1 h
    exact ⟨vars, refs, t', hvars, ht', hrefs, h⟩
  · rintro ⟨vars, refs, t', hvars, ht', hrefs, h⟩
    exact ⟨vars, hvars, bind_eq_ok.2 ⟨t', ht', bind_eq_ok.2 ⟨refs, hrefs, h⟩⟩⟩

section

variable {w : Workspace} {r : Route} {f : File} (hf : w.tree.node? r = some (.file f))
variable {d d' : Document} {t : Text} {mode : Nat}

include hf

/-- **A scan finds again what it found**, if `collect` finds it in the new document as in the old
one. All other files hold what they held. -/
theorem collectBelow_again (collect : Text → Bindings → Except Error Bindings)
    {R : Bindings → Bindings → Prop}
    (hd : ∀ p e, w.resolve p = .ok r → w.read p = .ok e → e = d)
    (ht : Document.ofText t = d')
    (hother : ∀ t found found' out, R found found' → collect t found = .ok out →
      ∃ out', collect t found' = .ok out' ∧ R out out')
    (hsame : ∀ found found' out, R found found' →
      collect (Text.unifyLineEnds d.text) found = .ok out →
        ∃ out', collect (Text.unifyLineEnds d'.text) found' = .ok out' ∧ R out out')
    {root : Path} {depth : Depth} {options : ScanOptions} {found out : Bindings}
    (hfound : R found found)
    (h : Scan.collectBelow w collect root depth options found = .ok out) :
    ∃ out', Scan.collectBelow (w.withFile r ⟨.text t, mode⟩) collect root depth options found =
      .ok out' ∧ R out out' := by
  obtain ⟨ps, hps, h⟩ := bind_eq_ok.1 h
  have hall : ∃ out', Scan.collectAll (w.withFile r ⟨.text t, mode⟩) collect ps found = .ok out' ∧
      R out out' := by
    refine Scan.collectAll_rel (fun p _ dp hread => ?_) hfound h
    rcases Workspace.read_withFile hf p with ⟨hsameRead, -⟩ | ⟨hnew, hresolve⟩
    · exact ⟨dp, hsameRead.trans hread, hother _⟩
    · obtain rfl := hd p dp hresolve hread
      exact ⟨d', ht ▸ hnew, hsame⟩
  obtain ⟨out', hout, hR⟩ := hall
  exact ⟨out', bind_eq_ok.2
    ⟨ps, (Workspace.files_withFile hf _ root depth options).trans hps, hout⟩, hR⟩

end

section

variable {w : Workspace} (hw : w.Valid) {p : Path} {o : RenderOptions} {x : Rendered} {r : Route}
  {f : File} (hx : Reads w p o x r f)

include hx

/-- Whatever path `q` leads to the file, the document is read. -/
theorem Reads.eq_of_read {q : Path} {d : Document} (hq : w.resolve q = .ok r)
    (hread : w.read q = .ok d) : d = x.document := by
  obtain ⟨t, ht, hd⟩ := hx.content
  rw [Workspace.read_of_node? hq hx.entry, ht] at hread
  exact (Except.ok.inj hread).symm.trans hd.symm

include hw

/-- **The document that was written renders as it is**, if it settles. -/
theorem file_again (hsettles : ∀ path d vars refs, Uses w p o path d vars refs →
      Fill.Settles vars refs o.strict d.text) :
    file (w.withFile r (x.written f.mode)) p o =
      .ok ⟨x.path, { x.document with text := x.text }, x.text⟩ := by
  obtain ⟨t, hexpand, hfill⟩ := hx.expanded
  obtain ⟨vars, refs, t', hvars, ht', hrefs, ht''⟩ := fill_eq_ok_iff.1 hfill
  have hs := hsettles x.path x.document vars refs ⟨hx.checked, hx.read, hvars, hrefs⟩
  -- there is nothing to expand, neither before nor afterwards
  rw [expand, Include.expand_of_unincluded hs.unincluded] at hexpand
  obtain rfl := Except.ok.inj hexpand
  -- the file that was written is read as the rendered document
  obtain ⟨source, -, hd⟩ := hx.content
  have hwritten := Document.ofText_fileText hd (hs.head?_both ht' ht'')
  have hread : (w.withFile r (x.written f.mode)).read x.path =
      .ok { x.document with text := x.text } := by
    have hresolve : w.resolve x.path = .ok r := by
      rw [hx.path, Workspace.resolve_ofRoute hw hx.entry (by simp)]
    rcases Workspace.read_withFile hx.entry x.path with ⟨-, hne⟩ | ⟨hnew, -⟩
    · exact absurd hresolve hne
    · exact hnew.trans (congrArg Except.ok hwritten)
  -- scans find the same variables, and the same references as far as they are shown
  have hd : ∀ q e, w.resolve q = .ok r → w.read q = .ok e → e = x.document :=
    fun q e hq he => hx.eq_of_read hq he
  have hvarsAgain : ∃ vars', Scan.varsAround (w.withFile r (x.written f.mode)) x.path o.depthUp
      o.depthDown o.scan = .ok vars' ∧ vars = vars' :=
    collectBelow_again (R := Eq) hx.entry Variables.collect hd hwritten
      (fun t found found' out hfound h => ⟨out, hfound ▸ h, rfl⟩)
      (fun found found' out hfound h =>
        ⟨out, hfound ▸ (hs.collect_vars ht' ht'' found).trans h, rfl⟩) rfl hvars
  have hrefsAgain : ∃ refs', Scan.refsAround (w.withFile r (x.written f.mode)) x.path o.depthUp
      o.depthDown o.scan = .ok refs' ∧
        Bindings.Agree (Fill.refNames vars refs x.document.text) refs refs' :=
    collectBelow_again hx.entry References.collect hd hwritten
      (fun t found found' out hfound h =>
        References.collect_agree (fun l hl => by rw [hl, Option.map_some]) hfound h)
      (fun found found' out hfound h => hs.collect_refs ht' ht'' hfound h)
      (Bindings.agree_refl _ _) hrefs
  obtain ⟨_, hvars', rfl⟩ := hvarsAgain
  obtain ⟨refs', hrefs', hagree⟩ := hrefsAgain
  obtain ⟨u, hu, hfilled⟩ := hs.fill_again ht' ht''
  refine bind_eq_ok.2 ⟨x.path, ?_, bind_eq_ok.2 ⟨_, hread, bind_eq_ok.2 ⟨x.text, ?_,
    bind_eq_ok.2 ⟨x.text, ?_, rfl⟩⟩⟩⟩
  · rw [Workspace.checkFile_withFile hx.entry, hx.checked]
  · exact Include.expand_of_unincluded (hs.unincluded_both ht' ht'') _ _ _
  · exact fill_eq_ok_iff.2 ⟨vars, refs', u, hvars', hu, hrefs', hfilled refs' hagree⟩

end

end Render

namespace Update

/-- **The next update finds nothing to change**, if the document settles. -/
theorem file_twice {w w' : Workspace} (hw : w.Valid) {p : Path} {o : RenderOptions} {stamp : Text}
    {report : UpdateReport} (hbackup : o.backup = false)
    (hsettles : ∀ path d vars refs, Render.Uses w p o path d vars refs →
      Fill.Settles vars refs o.strict d.text)
    (h : file w p o stamp = (.ok report, w')) (next : Text) :
    file w' p o next = (.ok ⟨report.path, false, none⟩, w') := by
  cases hrender : Render.file w p o with
  | error e =>
    rw [file, hrender] at h
    cases h
  | ok x =>
    obtain ⟨r, f, hx⟩ := Render.file_eq_ok hw hrender
    rw [file, hrender] at h
    dsimp only at h
    split at h
    · next hsame =>
      cases h
      rw [file, hrender]
      dsimp only
      rw [if_pos hsame]
    · rw [hbackup, write_without_backup hw hx stamp] at h
      cases h
      rw [file, Render.file_again hw hx hsettles]
      dsimp only
      rw [if_pos rfl]

/-- A workspace with one document and nothing else. -/
def lone (t : Text) : Workspace := ⟨⟨[([.ofString "d.md"], .file ⟨.text t, 0o644⟩)]⟩, []⟩

namespace lone

/-- The path of the document. -/
def path : Path := .ofString "d.md"

/-- Variable blocks in a reference that is shown, and in the old body of the block that shows it. -/
def settled : Text :=
  "<!--var(v)='1'-->\r\n<!--begin-ref(r)-->a<!--begin-var(v)-->1<!--end-var-->".toList ++
    "<!--end-ref--><!--begin-include(r)--><!--begin-var(v)--><!--end-var-->".toList ++
    "<!--end-include-->".toList

/-- The variables and the references of that document. -/
def vars : Bindings := Bindings.empty.set "v".toList "1".toList

def refs : Bindings := Bindings.empty.set "r".toList "a1".toList

/-- What is filled into the document `settled`. -/
theorem eq_of_uses {canonical : Path} {d : Document} {v r : Bindings}
    (h : Render.Uses (lone settled) path .default canonical d v r) :
    d = ⟨settled, false⟩ ∧ v = vars ∧ r = refs := by
  have huses : ((lone settled).checkFile path RenderOptions.default.extension).toOption =
        some (.ofString "/d.md") ∧
      ((lone settled).read (.ofString "/d.md")).toOption = some ⟨settled, false⟩ ∧
      (Scan.varsAround (lone settled) (.ofString "/d.md") RenderOptions.default.depthUp
        RenderOptions.default.depthDown RenderOptions.default.scan).toOption = some vars ∧
      (Scan.refsAround (lone settled) (.ofString "/d.md") RenderOptions.default.depthUp
        RenderOptions.default.depthDown RenderOptions.default.scan).toOption = some refs := by
    decide +kernel
  obtain ⟨hpath, hread, hvars, hrefs⟩ := huses
  rw [h.checked] at hpath
  obtain rfl := Option.some.inj hpath
  rw [h.read] at hread
  rw [h.vars] at hvars
  rw [h.refs] at hrefs
  exact ⟨Option.some.inj hread, Option.some.inj hvars, Option.some.inj hrefs⟩

theorem settles : Fill.Settles vars refs true settled := by decide +kernel

end lone

/-- The document `settled` changes once. -/
theorem file_twice_settled :
    (lone lone.settled).Valid ∧ RenderOptions.default.backup = false ∧
      (∀ path d vars refs,
        Render.Uses (lone lone.settled) lone.path RenderOptions.default path d vars refs →
          Fill.Settles vars refs RenderOptions.default.strict d.text) ∧
      ∃ w', file (lone lone.settled) lone.path RenderOptions.default [] =
          (.ok ⟨.ofString "/d.md", true, none⟩, w') ∧
        ∀ next, file w' lone.path RenderOptions.default next =
          (.ok ⟨.ofString "/d.md", false, none⟩, w') := by
  have hw : (lone lone.settled).Valid := by decide +kernel
  have hsettles : ∀ path d vars refs,
      Render.Uses (lone lone.settled) lone.path RenderOptions.default path d vars refs →
        Fill.Settles vars refs RenderOptions.default.strict d.text := by
    intro path d vars refs h
    obtain ⟨rfl, rfl, rfl⟩ := lone.eq_of_uses h
    exact lone.settles
  have hanswer : (file (lone lone.settled) lone.path RenderOptions.default []).1.toOption =
      some ⟨.ofString "/d.md", true, none⟩ := by
    decide +kernel
  have hfirst : file (lone lone.settled) lone.path RenderOptions.default [] =
      (.ok ⟨.ofString "/d.md", true, none⟩,
        (file (lone lone.settled) lone.path RenderOptions.default []).2) :=
    Prod.ext (Fill.eq_ok_of_toOption hanswer) rfl
  exact ⟨hw, rfl, hsettles, _, hfirst, file_twice hw rfl hsettles hfirst⟩

/-- Documents that do not settle, each for another reason. -/
def lone.unsettled : List Text :=
  [ -- a reference shows itself
    "<!--begin-ref(r)-->a<!--begin-include(r)--><!--end-include--><!--end-ref-->".toList,
    -- a reference that is shown shows a variable
    "<!--var(v)='1'--><!--begin-ref(r)--><!--begin-var(v)--><!--end-var-->".toList ++
      "<!--end-ref--><!--begin-include(r)--><!--end-include-->".toList,
    -- a declaration goes with an old value
    "<!--var(x)='1'--><!--begin-var(x)--><!--var(y)='2'--><!--end-var-->".toList ++
      "<!--begin-var(y)--><!--end-var-->".toList,
    -- a value closes the block that shows it
    "<!--var(x)='<!--end-var-->y'--><!--begin-var(x)--><!--end-var-->".toList,
    -- a value begins an inclusion block
    "<!--var(x)='<!--begin-include(r)-->'--><!--begin-var(x)--><!--end-var-->".toList ++
      "<!--begin-ref(r)-->a<!--end-ref--><!--end-include-->".toList,
    -- the body of a reference, without its comments, closes the block that shows it
    "<!--begin-ref(r)-->a<!<!---->--end-include-->b<!--end-ref-->".toList ++
      "<!--begin-include(r)--><!--end-include-->".toList,
    -- a value includes a file
    "<!--var(x)='<!--include-file(f)-->'--><!--begin-var(x)--><!--end-var-->".toList,
    -- a value ends what a stray opener begins
    "<!--var(a)='\"-->'--><!--var(z)='1'--><!--var(z)=\"<!--begin-var(a)-->".toList ++
      "<!--end-var-->".toList]

/-- **Such a document changes, and then it changes again or fails**, though it has no include
markers and no backup is made. -/
theorem file_changes_again : RenderOptions.default.backup = false ∧
    ∀ t ∈ lone.unsettled, (∀ p ∈ Piece.ofText t, p.isIncludeMarker = false) ∧
      (file (lone t) lone.path RenderOptions.default []).1.toOption.map (·.changed) = some true ∧
      (file (file (lone t) lone.path RenderOptions.default []).2 lone.path RenderOptions.default
        []).1.toOption.map (·.changed) ≠ some false := by
  decide +kernel

end Update

end Transclude
