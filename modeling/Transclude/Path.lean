import Transclude.Text.Bytes

/-!
# Paths

A path is bytes with slashes between its parts, and it keeps its spelling: joining adds at most one
slash, and nothing is cleaned away. What a path means does not depend on repeated slashes or on
parts `.` other than the first; the functions that take a path apart skip them. They follow the
standard library's functions on paths: `Path.join`, `Path.parent?` (`parent`), `Path.fileName?`
(`file_name`), `Path.steps` (`components`) and `Path.absolute`.

A part between slashes need not be UTF-8. What messages show of a path, `Path.text`, is text all the
same; two paths may be shown alike.

A directory may be spelled in any way, but the entry behind it is always spelled alike
(`Path.steps_join`), because a name of an entry holds no slash and is none of the parts that say
nothing or lead up (`IsEntryName`).

Main statements:
- `Path.steps_join`: the steps of a path behind a directory come after those of the directory.
- `Path.areNamed_steps`: a step down has a name that an entry can have.
- `Path.fileName?_entry`: the name of an entry is found behind the path of its directory.
-/

namespace Transclude

/-- A path, as it is spelled. -/
structure Path where
  bytes : Bytes
  deriving DecidableEq, Repr

namespace Path

/-- The byte between the parts of a path. -/
@[match_pattern]
abbrev slash : UInt8 := 0x2F

/-- The byte before an extension, and in the parts `.` and `..`. -/
@[match_pattern]
abbrev point : UInt8 := 0x2E

/-- The path with this spelling. -/
def ofText (t : Text) : Path := ⟨t.bytes⟩

/-- The path with this spelling. -/
def ofString (s : String) : Path := ⟨.ofString s⟩

/-- What messages show of a path. -/
def text (p : Path) : Text := p.bytes.shown

/-- The path without parts. -/
def empty : Path := ⟨[]⟩

/-- The directory that a path starts from if it starts nowhere else. -/
def dot : Path := ⟨[point]⟩

/-- Whether a path starts at the root. -/
def isRooted (p : Path) : Bool := p.bytes.head? = some slash

/-- The path `q`, seen from the directory `p`. -/
def join (p q : Path) : Path :=
  if q.isRooted then q
  else if p.bytes = [] ∨ p.bytes.getLast? = some slash then ⟨p.bytes ++ q.bytes⟩
  else ⟨p.bytes ++ slash :: q.bytes⟩

/-- The entry `name` of the directory `p`. -/
def entry (p : Path) (name : Bytes) : Path := p.join ⟨name⟩

/-- The parts between the slashes. -/
def segments (p : Path) : List Bytes := p.bytes.splitOn slash

/-- The path with these parts between its slashes. -/
def ofSegments (segments : List Bytes) : Path := ⟨List.intercalate [slash] segments⟩

/-- Whether a part between slashes says nothing. -/
def isIdle (segment : Bytes) : Bool := segment = [] ∨ segment = [point]

/-- Without the idle parts at the end. -/
def dropIdle (segments : List Bytes) : List Bytes := (segments.reverse.dropWhile isIdle).reverse

/-- The first part between slashes, which is empty for a rooted path, and the others without the
idle ones at the end. -/
def trimmed (p : Path) : Bytes × List Bytes :=
  (p.segments.headD [], dropIdle p.segments.tail)

/-- The directory that holds the entry. A root and the empty path have none; a path of one part has
the empty path. -/
def parent? (p : Path) : Option Path :=
  match p.trimmed with
  | (first, []) => if first = [] then none else some empty
  | (first, tail) =>
    match first, dropIdle tail.dropLast with
    | [], [] => some ⟨[slash]⟩
    | first, above => some (ofSegments (first :: above))

/-- The name of the entry. A path that ends in `..` and a path without a named part have none. -/
def fileName? (p : Path) : Option Bytes :=
  match p.trimmed with
  | (first, []) => if isIdle first ∨ first = [point, point] then none else some first
  | (_, tail) => tail.getLast?.filter (· ≠ [point, point])

/-- The same directory, another name. -/
def withFileName (p : Path) (name : Bytes) : Path :=
  match p.fileName?, p.parent? with
  | some _, some dir => dir.entry name
  | _, _ => p.entry name

/-- A file name in two: before its last dot and after it. A dot at the beginning does not count. -/
def splitName (name : Bytes) : Bytes × Option Bytes :=
  let suffix := (name.reverse.takeWhile (· ≠ point)).reverse
  let stem := (name.reverse.dropWhile (· ≠ point)).tail.reverse
  if stem = [] then (name, none) else (stem, some suffix)

/-- What a part of a path does. -/
inductive Step where
  /-- Stays, where there has to be a directory. -/
  | here
  | up
  | down (name : Bytes)
  deriving DecidableEq, Repr

/-- The step of a part between slashes; an empty part is none. -/
def Step.ofSegment? (segment : Bytes) : Option Step :=
  if segment = [] then none
  else if segment = [point] then some .here
  else if segment = [point, point] then some .up
  else some (.down segment)

/-- The steps of a path. A slash at the end asks for a directory. -/
def steps (p : Path) : List Step :=
  p.segments.filterMap Step.ofSegment? ++ (if p.bytes.getLast? = some slash then [.here] else [])

/-- Whether one of the parts is `..`. -/
def climbs (p : Path) : Bool := p.steps.any (· = .up)

/-- The part of a path that a step stands for. -/
def Step.bytes : Step → Bytes
  | here => [point]
  | up => [point, point]
  | down name => name

/-- The path from the root, as its spelling has it: a relative path is seen from `cwd`, repeated
slashes and parts `.` are left out, and parts `..` are kept. Two slashes at the beginning stay two.
-/
def absolute (p cwd : Path) : Path :=
  if p.bytes = [] then p
  else
    let base : Path :=
      if !p.isRooted then cwd
      else
        match p.bytes with
        | slash :: slash :: slash :: _ => ⟨[slash]⟩
        | slash :: slash :: _ => ⟨[slash, slash]⟩
        | _ => ⟨[slash]⟩
    let parts := (p.segments.filterMap Step.ofSegment?).filter (· ≠ .here)
    let whole := parts.foldl (fun dir s => dir.entry s.bytes) base
    if p.bytes.getLast? = some slash then whole.join empty else whole

end Path

/-! ## Names of entries -/

/-- Whether bytes can be the name of an entry. -/
def IsEntryName (name : Bytes) : Prop :=
  name ≠ [] ∧ name ≠ [Path.point] ∧ name ≠ [Path.point, Path.point] ∧ Path.slash ∉ name

instance (name : Bytes) : Decidable (IsEntryName name) :=
  inferInstanceAs (Decidable (name ≠ [] ∧ name ≠ [Path.point] ∧ name ≠ [Path.point, Path.point] ∧
    Path.slash ∉ name))

namespace IsEntryName

variable {name : Bytes}

theorem ofSegment? (h : IsEntryName name) : Path.Step.ofSegment? name = some (.down name) := by
  obtain ⟨hnil, hdot, hdots, -⟩ := h
  rw [Path.Step.ofSegment?, if_neg hnil, if_neg hdot, if_neg hdots]

/-- A name is no part that a path is shortened by: neither empty nor a point. -/
theorem not_isIdle (h : IsEntryName name) : Path.isIdle name = false := by
  simp [Path.isIdle, h.1, h.2.1]

/-- The last character of a name is no slash, so no name asks for a directory by its end. -/
theorem getLast?_ne (h : IsEntryName name) : name.getLast? ≠ some Path.slash :=
  fun hlast => h.2.2.2 (List.mem_of_getLast? hlast)

end IsEntryName

/-- A text without slash that is more than points can be the name of an entry. One ASCII character
`c` other than a point is enough for that. -/
theorem isEntryName_bytes {t : Text} {c : Char} (hmem : c ∈ t) (hc : c.toNat < 128)
    (hpoint : c ≠ '.') (hslash : '/' ∉ t) : IsEntryName t.bytes := by
  have hbyte : c.toUInt8 ∈ t.bytes := (Text.mem_bytes_iff hc).2 hmem
  have hne : c.toUInt8 ≠ Path.point := mt (Text.toUInt8_inj hc (d := '.') (by decide)).1 hpoint
  refine ⟨?_, ?_, ?_, mt (Text.mem_bytes_iff (d := '/') (by decide)).1 hslash⟩ <;> intro h <;>
    rw [h] at hbyte <;> simp [hne] at hbyte

namespace Path

/-- Whether steps only go down to what can be the name of an entry. -/
def AreNamed (steps : List Step) : Prop := ∀ name, .down name ∈ steps → IsEntryName name

/-- The steps of any path `p` go down to names that entries can have. -/
theorem areNamed_steps (p : Path) : AreNamed p.steps := by
  intro name h
  rw [steps] at h
  rcases List.mem_append.1 h with h | h
  · obtain ⟨s, hs, hstep⟩ := List.mem_filterMap.1 h
    rw [Step.ofSegment?] at hstep
    split at hstep
    · cases hstep
    next hnil =>
    split at hstep
    · cases hstep
    next hdot =>
    split at hstep
    · cases hstep
    next hdots =>
    cases hstep
    exact ⟨hnil, hdot, hdots, not_mem_of_mem_splitOn hs⟩
  · split at h
    · cases List.mem_singleton.1 h
    · cases h

/-! ## Entries of a directory

A directory may be spelled in any way; its entry is spelled behind it. -/

/-- The path `q` behind `p`: its steps come last. What comes before are the steps `lead` of the
directory, which ask for a directory at their end if a slash stands there. -/
theorem steps_join (p : Path) {q : Path} (hq : q.bytes ≠ []) (hrooted : q.isRooted = false) :
    ∃ lead, (p.join q).steps = lead ++ q.steps ∧
      (p.steps = lead ∨ p.steps = lead ++ [.here]) := by
  have hlast : ∀ t, (t ++ slash :: q.bytes).getLast? = q.bytes.getLast? := by
    intro t
    obtain ⟨c, hc⟩ : ∃ c, q.bytes.getLast? = some c := ⟨_, List.getLast?_eq_some_getLast hq⟩
    rw [List.getLast?_append, List.getLast?_cons, hc]
    rfl
  have hsteps : ∀ t, (⟨t ++ slash :: q.bytes⟩ : Path).steps =
      (t.splitOn slash).filterMap Step.ofSegment? ++ q.steps := by
    intro t
    rw [steps, segments, List.splitOn_append_cons_self, List.filterMap_append, hlast, steps,
      segments, List.append_assoc]
  rw [join, if_neg (by simp [hrooted])]
  by_cases hp : p.bytes = []
  · refine ⟨[], ?_, .inl ?_⟩
    · rw [if_pos (.inl hp), hp]
      rfl
    · rw [steps, segments, hp]
      rfl
  by_cases hslash : p.bytes.getLast? = some slash
  · obtain ⟨t, ht⟩ : ∃ t, p.bytes = t ++ [slash] := List.getLast?_eq_some_iff.1 hslash
    refine ⟨(t.splitOn slash).filterMap Step.ofSegment?, ?_, .inr ?_⟩
    · rw [if_pos (.inr hslash), ht, List.append_assoc]
      exact hsteps t
    · rw [steps, segments, hslash, if_pos rfl, ht, List.splitOn_append_cons_self,
        List.filterMap_append]
      simp [Step.ofSegment?]
  · refine ⟨(p.bytes.splitOn slash).filterMap Step.ofSegment?, ?_, .inl ?_⟩
    · rw [if_neg (not_or.2 ⟨hp, hslash⟩)]
      exact hsteps p.bytes
    · rw [steps, if_neg hslash, List.append_nil, segments]

theorem isRooted_join {p q : Path} (hp : p.bytes ≠ []) (hrooted : q.isRooted = false) :
    (p.join q).isRooted = p.isRooted := by
  obtain ⟨c, t, ht⟩ := List.exists_cons_of_ne_nil hp
  rw [join, if_neg (by simp [hrooted])]
  split <;> simp [isRooted, ht]

theorem dropIdle_concat {l : List Bytes} {name : Bytes} (h : isIdle name = false) :
    dropIdle (l ++ [name]) = l ++ [name] := by
  rw [dropIdle, List.reverse_append, List.reverse_singleton, List.singleton_append,
    List.dropWhile_cons_of_neg (by simp [h]), List.reverse_cons, List.reverse_reverse]

section

variable {name : Bytes} (hname : IsEntryName name)

include hname

theorem isRooted_name : isRooted ⟨name⟩ = false := by
  cases name with
  | nil => rfl
  | cons c t =>
    have hc : c ≠ slash := fun hc => hname.2.2.2 (hc ▸ List.mem_cons_self)
    simp [isRooted, hc]

theorem steps_name : steps ⟨name⟩ = [.down name] := by
  rw [steps, segments, List.splitOn_eq_singleton hname.2.2.2, if_neg hname.getLast?_ne,
    List.append_nil, List.filterMap_cons, hname.ofSegment?]
  rfl

end

/-- The name of an entry, behind the path `d` of its directory, is found again by `fileName?`. -/
theorem fileName?_entry {d : Path} (hd : d.bytes ≠ []) {n : Bytes} (hn : IsEntryName n) :
    (d.entry n).fileName? = some n := by
  obtain ⟨lead, htext⟩ : ∃ lead, (d.entry n).bytes = lead ++ slash :: n := by
    rw [entry, join, if_neg (by simp [isRooted_name hn])]
    split
    · next h =>
      obtain ⟨lead, hlead⟩ := List.getLast?_eq_some_iff.1 (h.resolve_left hd)
      exact ⟨lead, by simp [hlead]⟩
    · exact ⟨d.bytes, rfl⟩
  obtain ⟨first, rest, hfirst⟩ := List.exists_cons_of_ne_nil (List.splitOn_ne_nil slash lead)
  have htrimmed : (d.entry n).trimmed = (first, rest ++ [n]) := by
    rw [trimmed, segments, htext, List.splitOn_append_cons_self, hfirst,
      List.splitOn_eq_singleton hn.2.2.2]
    exact congrArg (Prod.mk first) (dropIdle_concat hn.not_isIdle)
  obtain ⟨a, l, hl⟩ := List.exists_cons_of_ne_nil
    (List.append_ne_nil_of_right_ne_nil rest (List.cons_ne_nil n []))
  rw [fileName?, htrimmed, hl]
  dsimp only
  rw [← hl, List.getLast?_concat]
  exact Option.filter_eq_some_iff.2 ⟨rfl, decide_eq_true hn.2.2.1⟩

/-- Joining the empty path puts a slash at the end of `p`, and a name behind it leads to the same
place as without. -/
theorem entry_join_empty (p : Path) (name : Bytes) : (p.join .empty).entry name = p.entry name := by
  rw [join, if_neg (by decide)]
  split
  · rw [empty, List.append_nil]
  · next h =>
    have hlast : (p.bytes ++ slash :: empty.bytes).getLast? = some slash := by simp [empty]
    rw [entry, entry, join, join, if_neg h]
    split
    · rfl
    · rw [if_pos (.inr hlast)]
      simp [empty]

/-- The steps of a path `q` behind a folder are those of the folder, then its own. The empty folder
stands for the directory in which relative paths start. -/
theorem exists_lead_join (folder : Path) {q : Path} (hbytes : q.bytes ≠ [])
    (hrooted : q.isRooted = false) :
    ∃ lead, (folder.join q).steps = lead ++ q.steps ∧
      ((if folder.bytes = [] then dot else folder).steps = lead ∨
        (if folder.bytes = [] then dot else folder).steps = lead ++ [.here]) := by
  obtain ⟨lead, hsteps, hlead⟩ := steps_join folder hbytes hrooted
  refine ⟨lead, hsteps, ?_⟩
  by_cases hnil : folder.bytes = []
  · have hfolder : folder.steps = [] := by
      rw [steps, segments, hnil]
      rfl
    rw [hfolder] at hlead
    have hnone : lead = [] := by
      rcases hlead with hlead | hlead
      · exact hlead.symm
      · exact absurd hlead.symm (List.concat_ne_nil _ _)
    rw [if_pos hnil, hnone]
    exact .inr rfl
  · rw [if_neg hnil]
    exact hlead

/-! ## Steps up -/

theorem Step.ofSegment?_eq_up_iff {s : Bytes} :
    ofSegment? s = some .up ↔ s = [point, point] := by
  constructor
  · intro h
    unfold ofSegment? at h
    split at h
    · cases h
    · split at h
      · cases h
      · split at h
        · assumption
        · cases h
  · intro h
    rw [h]
    rfl

/-- A path climbs if `..` stands anywhere between its slashes, also in front of parts that it takes
back. -/
theorem climbs_eq_true_iff (p : Path) : p.climbs = true ↔ [point, point] ∈ p.segments := by
  rw [climbs, List.any_eq_true, steps]
  constructor
  · intro h
    obtain ⟨step, hstep, hup⟩ := h
    obtain rfl := of_decide_eq_true hup
    rcases List.mem_append.1 hstep with hstep | hstep
    · obtain ⟨s, hs, hsegment⟩ := List.mem_filterMap.1 hstep
      rwa [← Step.ofSegment?_eq_up_iff.1 hsegment]
    · split at hstep
      · cases List.mem_singleton.1 hstep
      · cases hstep
  · intro h
    have hup : .up ∈ p.segments.filterMap Step.ofSegment? :=
      List.mem_filterMap.2 ⟨_, h, Step.ofSegment?_eq_up_iff.2 rfl⟩
    exact ⟨.up, List.mem_append_left _ hup, rfl⟩

/-- A path that starts with some part, and not at the root, has a step. -/
theorem steps_ne_nil {p : Path} (hbytes : p.bytes ≠ []) (hrooted : p.isRooted = false) :
    p.steps ≠ [] := by
  obtain ⟨c, t, ht⟩ := List.exists_cons_of_ne_nil hbytes
  have hc : c ≠ slash := by
    intro hc
    simp [isRooted, ht, hc] at hrooted
  obtain ⟨s, rest, hs⟩ := List.exists_cons_of_ne_nil (List.splitOn_ne_nil slash t)
  have hsegments : p.segments = (c :: s) :: rest := by
    rw [segments, ht, List.splitOn_cons_eq_if_modifyHead, if_neg (by simpa using hc), hs]
    rfl
  intro hnil
  rw [steps, hsegments, List.filterMap_cons, Step.ofSegment?, if_neg (List.cons_ne_nil c s)] at hnil
  split at hnil
  · next hnone =>
    split at hnone
    · cases hnone
    · split at hnone
      · cases hnone
      · cases hnone
  · cases hnil

end Path

end Transclude
