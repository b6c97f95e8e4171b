import Beez.Lib.Links
import Beez.Text
import Mathlib.Data.List.DropRight

/-! # Rules for paths that do not exist yet -/

open Beez.Lib

namespace Beez.Sandbox

/-- An absolute path, cut at its separators. -/
abbrev Parts := List (PathPart String)

namespace Parts

def ofText (path : Text) : Parts :=
  (Text.splitOn '/' path).tail.map fun part =>
    if part = [] ∨ part = ['.'] then .here
    else if part = ['.', '.'] then .up
    else .name (.ofList part)

/-- The path that `components` have left, without the dots and separators at its end. -/
def asPath (path : Parts) : Parts := path.rdropWhile (· = .here)

/-- `components.next_back()`, and the path that is left of it. -/
def nextBack (path : Parts) : Option (Parts × PathPart String) :=
  (asPath path).getLast?.map fun last => (asPath (asPath path).dropLast, last)

/-- `path.file_name()`. -/
def fileName (path : Parts) : Option String :=
  match nextBack path with
  | some (_, .name name) => some name
  | _ => none

/-- `path.parent()`. -/
def parent (path : Parts) : Option Parts := (nextBack path).map Prod.fst

/-- The names among the parts. -/
def names (path : Parts) : List String := path.filterMap PathPart.name?

def ofNames (names : List String) : Parts := names.map .name

theorem asPath_length_le (path : Parts) : (asPath path).length ≤ path.length :=
  (List.rdropWhile_prefix _ _).length_le

theorem parent_length_lt {path before : Parts} (h : parent path = some before) :
    before.length < path.length := by
  obtain ⟨⟨_, last⟩, hback, rfl⟩ := Option.map_eq_some_iff.mp h
  obtain ⟨last', hlast, heq⟩ := Option.map_eq_some_iff.mp hback
  obtain ⟨rfl, rfl⟩ := Prod.mk.inj heq
  have some := List.length_pos_of_mem (List.mem_of_getLast? hlast)
  have front := asPath_length_le (asPath path).dropLast
  have whole := asPath_length_le path
  rw [List.length_dropLast] at front
  change (asPath (asPath path).dropLast).length < path.length
  omega

end Parts

/-- The loop of `canonicalize_lenient`, with the names cut off so far. -/
def lenientLoop (tree : LinkTree String) (links : Nat) (path : Parts) (missing : List String)
    (current : Parts) : Parts :=
  match tree.canonicalize links current with
  | some canonical => .ofNames (canonical ++ missing)
  | none =>
    match current.fileName with
    | none => path
    | some fileName =>
      match _found : current.parent with
      | none => path
      | some parent => lenientLoop tree links path (fileName :: missing) parent
termination_by current.length
decreasing_by exact Parts.parent_length_lt _found

/-- Canonicalizes the longest existing prefix and appends the rest unchanged. -/
def canonicalizeLenient (tree : LinkTree String) (links : Nat) (path : Parts) : Parts :=
  match tree.canonicalize links path with
  | some canonical => .ofNames canonical
  | none => lenientLoop tree links path [] path

/-! ## The end of a path -/

namespace Parts

variable {path before front rest : Parts} {part last : PathPart String} {name : String}

@[simp] theorem asPath_here : asPath (path ++ [.here]) = asPath path :=
  List.rdropWhile_concat_pos _ _ _ (by simp)

theorem asPath_of_ne (h : part ≠ .here) : asPath (path ++ [part]) = path ++ [part] :=
  List.rdropWhile_concat_neg _ _ _ (by simpa using h)

@[simp] theorem asPath_name : asPath (path ++ [.name name]) = path ++ [.name name] := asPath_of_ne nofun

theorem exists_gap (path : Parts) :
    ∃ gap, path = asPath path ++ gap ∧ ∀ part ∈ gap, part = .here := by
  induction path using List.reverseRecOn with
  | nil => exact ⟨[], rfl, List.forall_mem_nil _⟩
  | append_singleton path part ih =>
    by_cases h : part = .here
    · obtain ⟨gap, hpath, heres⟩ := ih
      subst h
      refine ⟨gap ++ [.here], ?_, ?_⟩
      · rw [asPath_here, ← List.append_assoc, ← hpath]
      · simpa [or_imp, forall_and] using heres
    · exact ⟨[], by rw [asPath_of_ne h, List.append_nil], List.forall_mem_nil _⟩

/-- A path ends in the component that it gives, with nothing but dots around its separators. -/
theorem nextBack_eq (h : nextBack path = some (before, last)) :
    ∃ gap tail, path = before ++ (gap ++ last :: tail) ∧ last ≠ .here ∧
      (∀ part ∈ gap, part = .here) ∧ ∀ part ∈ tail, part = .here := by
  obtain ⟨last', hlast, heq⟩ := Option.map_eq_some_iff.mp h
  obtain ⟨rfl, rfl⟩ := Prod.mk.inj heq
  obtain ⟨tail, hpath, tails⟩ := exists_gap path
  obtain ⟨gap, hfront, gaps⟩ := exists_gap (asPath path).dropLast
  have cut := List.dropLast_append_getLast? _ hlast
  refine ⟨gap, tail, ?_, ?_, gaps, tails⟩
  · rw [← List.append_assoc, ← hfront, List.append_cons, cut, ← hpath]
  · rintro rfl
    have again : asPath (asPath path) = asPath path := List.rdropWhile_idempotent _ _
    rw [← cut, asPath_here] at again
    have shorter := asPath_length_le (asPath path).dropLast
    rw [again, List.length_append, List.length_singleton] at shorter
    omega

theorem nextBack_here : nextBack (path ++ [.here]) = nextBack path := by
  unfold nextBack
  rw [asPath_here]

theorem nextBack_name : nextBack (path ++ [.name name]) = some (asPath path, .name name) := by
  unfold nextBack
  simp

theorem nextBack_eq_none (h : nextBack path = none) : ∀ part ∈ path, part = .here := by
  have empty : asPath path = [] := by simpa [nextBack] using h
  obtain ⟨gap, hpath, heres⟩ := exists_gap path
  rw [empty, List.nil_append] at hpath
  rwa [hpath]

theorem parent_eq (h : nextBack path = some (before, last)) : parent path = some before := by
  rw [parent, h]
  rfl

@[simp] theorem names_append (front rest : Parts) : names (front ++ rest) = names front ++ names rest :=
  List.filterMap_append

@[simp] theorem names_name (name : String) (rest : Parts) :
    names (.name name :: rest) = name :: names rest := rfl

theorem names_heres {gap : Parts} (heres : ∀ part ∈ gap, part = .here) : names gap = [] :=
  List.filterMap_eq_nil_iff.mpr fun part mem => by rw [heres part mem]; rfl

theorem up_not_mem {gap : Parts} (heres : ∀ part ∈ gap, part = .here) : .up ∉ gap :=
  fun mem => nomatch heres .up mem

theorem ofNames_inj {names names' : List String} (h : ofNames names = ofNames names') :
    names = names' :=
  List.map_injective_iff.mpr (fun _ _ => PathPart.name.inj) h

theorem up_not_mem_ofNames {names : List String} : .up ∉ ofNames names := by simp [ofNames]

end Parts

/-! ## The loop -/

section

variable {tree : LinkTree String} {links : Nat} {path current before : Parts}
  {missing canonical : List String} {name : String}

theorem lenientLoop_found (h : tree.canonicalize links current = some canonical) :
    lenientLoop tree links path missing current = .ofNames (canonical ++ missing) := by
  rw [lenientLoop, h]

theorem lenientLoop_cut (h : tree.canonicalize links current = none)
    (hback : current.nextBack = some (before, .name name)) :
    lenientLoop tree links path missing current =
      lenientLoop tree links path (name :: missing) before := by
  have hname : current.fileName = some name := by rw [Parts.fileName, hback]
  have hparent := Parts.parent_eq hback
  rw [lenientLoop, h, hname]
  dsimp only
  split
  · simp_all
  · simp_all

theorem lenientLoop_given (h : tree.canonicalize links current = none)
    (hname : current.fileName = none) : lenientLoop tree links path missing current = path := by
  rw [lenientLoop, h, hname]

/-- The loop ends at a part of the path that exists, and appends the names behind it. Only a path
that goes up comes back as it was given. -/
theorem lenientLoop_cases {tail : Parts} (whole : path = current ++ tail) (down : .up ∉ tail) :
    (∃ front rest canonical, path = front ++ rest ∧ .up ∉ rest ∧
      tree.canonicalize links front = some canonical ∧
      lenientLoop tree links path tail.names current = .ofNames (canonical ++ rest.names)) ∨
    .up ∈ path ∧ lenientLoop tree links path tail.names current = path := by
  induction hlength : current.length using Nat.strong_induction_on generalizing current tail with
  | _ length ih =>
  cases hcanonical : tree.canonicalize links current with
  | some canonical =>
    exact .inl ⟨current, tail, canonical, whole, down, hcanonical, lenientLoop_found hcanonical⟩
  | none =>
    cases hback : current.nextBack with
    | none =>
      -- Nothing but dots is the root, which exists.
      have root : tree.walk links [] (current ++ []) = _ :=
        LinkTree.walk_heres tree.root (Parts.nextBack_eq_none hback)
      rw [List.append_nil, LinkTree.walk_nil] at root
      simp [LinkTree.canonicalize, root] at hcanonical
    | some found =>
      obtain ⟨before, last⟩ := found
      obtain ⟨gap, dots, hcurrent, other, gaps, heres⟩ := Parts.nextBack_eq hback
      cases last with
      | here => exact absurd rfl other
      | up =>
        refine .inr ⟨?_, lenientLoop_given hcanonical (by rw [Parts.fileName, hback])⟩
        rw [whole, hcurrent]
        simp
      | name name =>
        have cut : path = before ++ (gap ++ .name name :: (dots ++ tail)) := by
          rw [whole, hcurrent]
          simp
        have names : name :: tail.names = Parts.names (gap ++ .name name :: (dots ++ tail)) := by
          rw [Parts.names_append, Parts.names_heres gaps, List.nil_append, Parts.names_name,
            Parts.names_append, Parts.names_heres heres, List.nil_append]
        rw [lenientLoop_cut hcanonical hback, names]
        refine ih before.length ?_ cut ?_ rfl
        · rw [← hlength]
          exact Parts.parent_length_lt (Parts.parent_eq hback)
        · simp [Parts.up_not_mem gaps, Parts.up_not_mem heres, down]

theorem canonicalize_asPath (h : tree.canonicalize links path = some canonical) :
    tree.canonicalize links path.asPath = some canonical := by
  obtain ⟨left, walked⟩ := LinkTree.canonicalize_eq_some.mp h
  obtain ⟨gap, hpath, heres⟩ := Parts.exists_gap path
  obtain ⟨left', middle, front⟩ := walked.before hpath
  have whole := LinkTree.walk_iff.mpr walked
  rw [hpath, front.append, LinkTree.walk_iff] at whole
  rw [whole.heres heres]
  exact LinkTree.canonicalize_eq_some.mpr ⟨left', front⟩

theorem lenientLoop_here (h : tree.canonicalize links current = none)
    (h' : tree.canonicalize links (current ++ [.here]) = none) :
    lenientLoop tree links path missing (current ++ [.here]) =
      lenientLoop tree links path missing current := by
  have same : (current ++ [PathPart.here]).nextBack = current.nextBack := Parts.nextBack_here
  have name : (current ++ [PathPart.here]).fileName = current.fileName := by
    rw [Parts.fileName, same, Parts.fileName]
  cases hname : current.fileName with
  | none => rw [lenientLoop_given h' (name.trans hname), lenientLoop_given h hname]
  | some fileName =>
    have hback : ∃ before, current.nextBack = some (before, .name fileName) := by
      unfold Parts.fileName at hname
      split at hname
      · next before found hback => exact ⟨before, by rw [hback, Option.some.inj hname]⟩
      · cases hname
    obtain ⟨before, hback⟩ := hback
    rw [lenientLoop_cut h' (same.trans hback), lenientLoop_cut h hback]

section

variable {directory : List String} {first : String} {front rest : Parts}

theorem canonicalize_new (hfront : tree.canonicalize links front = some directory)
    (new : tree.entry (directory ++ [first]) = none) (rest : Parts) :
    tree.canonicalize links (front ++ .name first :: rest) = none := by
  obtain ⟨left, walked⟩ := LinkTree.canonicalize_eq_some.mp hfront
  rw [LinkTree.canonicalize, walked.append, LinkTree.walk_missing new]
  rfl

/-- Behind a name that its directory does not hold, the loop cuts off names until the directory. -/
theorem lenientLoop_new (hfront : tree.canonicalize links front = some directory)
    (new : tree.entry (directory ++ [first]) = none) (down : .up ∉ rest) :
    lenientLoop tree links path missing (Parts.asPath (front ++ .name first :: rest)) =
        .ofNames (directory ++ first :: (Parts.names rest ++ missing)) ∧
      lenientLoop tree links path missing (front ++ .name first :: rest) =
        .ofNames (directory ++ first :: (Parts.names rest ++ missing)) := by
  have fails := canonicalize_new hfront new
  induction rest using List.reverseRecOn generalizing missing with
  | nil =>
    rw [Parts.asPath_name, and_self,
      lenientLoop_cut (fails []) (Parts.nextBack_name),
      lenientLoop_found (canonicalize_asPath hfront)]
    rfl
  | append_singleton rest part ih =>
    rw [List.mem_append, not_or] at down
    have next := fun missing => @ih missing down.1
    have whole : front ++ .name first :: (rest ++ [part]) =
        (front ++ .name first :: rest) ++ [part] := by simp
    cases part with
    | here =>
      have same : Parts.names (rest ++ [.here]) = Parts.names rest := by
        simp [Parts.names, PathPart.name?]
      have last := fails (rest ++ [.here])
      rw [whole] at last
      rw [whole, Parts.asPath_here, lenientLoop_here (fails rest) last, same]
      exact next missing
    | up => exact absurd (List.mem_singleton_self _) down.2
    | name name =>
      have more : Parts.names (rest ++ [.name name]) ++ missing =
          Parts.names rest ++ name :: missing := by
        simp [Parts.names, PathPart.name?]
      have last := fails (rest ++ [.name name])
      rw [whole] at last
      rw [whole, Parts.asPath_name, and_self, more,
        lenientLoop_cut last (Parts.nextBack_name)]
      exact (next (name :: missing)).1

end

end

/-! ## What a path names once its parents are there -/

/-- `result` has names only and no link that exists, and `path` leads to it once more plain
directories are there. -/
def NamesCreated (tree : LinkTree String) (links : Nat) (path result : Parts) : Prop :=
  ∃ names, result = .ofNames names ∧
    (∃ grown, tree.Grown grown ∧ grown.canonicalize links path = some names) ∧
    ∀ above, above <+: names → ∀ absolute target, tree.entry above ≠ some (.link absolute target)

/-- What is missing of the path starts with a name that its directory does not hold, and does not
go up again. -/
def MissingAtEnd (tree : LinkTree String) (links : Nat) (path : Parts) : Prop :=
  ∃ front first rest directory, path = front ++ .name first :: rest ∧ .up ∉ rest ∧
    tree.canonicalize links front = some directory ∧ tree.entry directory = some .directory ∧
    tree.entry (directory ++ [first]) = none

section

variable {tree : LinkTree String} {links : Nat} {path : Parts}

/-- However the directories are made, the path then names one and the same place. -/
theorem NamesCreated.unique {result result' : Parts} (h : NamesCreated tree links path result)
    (h' : NamesCreated tree links path result') : result = result' := by
  obtain ⟨names, rfl, ⟨grown, more, hgrown⟩, -⟩ := h
  obtain ⟨names', rfl, ⟨grown', more', hgrown'⟩, -⟩ := h'
  obtain ⟨_, walked⟩ := LinkTree.canonicalize_eq_some.mp hgrown
  obtain ⟨_, walked'⟩ := LinkTree.canonicalize_eq_some.mp hgrown'
  rw [walked.grown_unique more more' walked']

theorem namesCreated_of_canonicalize {names : List String}
    (h : tree.canonicalize links path = some names) : NamesCreated tree links path (.ofNames names) := by
  obtain ⟨left, walked⟩ := LinkTree.canonicalize_eq_some.mp h
  refine ⟨names, rfl, ⟨tree, .refl tree, h⟩, fun above below _ _ => ?_⟩
  exact ((walked.solid (.inl tree.root)).above below).ne_link

section

variable {front rest : Parts} {first : String} {directory : List String}

/-- Behind a name that its directory does not hold, nothing stands in the way. -/
theorem free_new (dir : tree.entry directory = some .directory)
    (new : tree.entry (directory ++ [first]) = none) (names : List String) :
    ∀ above, above <+: directory ++ first :: names →
      tree.entry above = none ∨ tree.entry above = some .directory := by
  intro above below
  have solid : tree.Solid directory := .inl dir
  rw [List.append_cons] at below
  rcases List.prefix_or_prefix_of_prefix below (List.prefix_append _ names) with short | long
  · rcases List.prefix_concat_iff.mp short with rfl | short
    · exact .inl new
    · right
      by_cases same : above = directory
      · rwa [same]
      · exact LinkTree.entry_above solid.ne_none short same
  · left
    by_contra present
    by_cases same : directory ++ [first] = above
    · exact present (same ▸ new)
    · rw [LinkTree.entry_above present long same] at new
      cases new

theorem namesCreated_new (hfront : tree.canonicalize links front = some directory)
    (dir : tree.entry directory = some .directory) (new : tree.entry (directory ++ [first]) = none)
    (down : .up ∉ rest) :
    NamesCreated tree links (front ++ .name first :: rest)
      (.ofNames (directory ++ first :: Parts.names rest)) := by
  have free := free_new dir new (Parts.names rest)
  have grown := LinkTree.grown_grow free
  obtain ⟨left, walked⟩ := LinkTree.canonicalize_eq_some.mp hfront
  refine ⟨_, rfl, ⟨_, grown, ?_⟩, fun above below absolute target link => ?_⟩
  · have dirs : ∀ below,
        below <+: directory ++ (PathPart.name first :: rest).filterMap PathPart.name? →
        (tree.grow (directory ++ first :: Parts.names rest)).entry below = some .directory :=
      fun below h => if_pos h
    have down' : .up ∉ PathPart.name first :: rest := by simpa using down
    rw [LinkTree.canonicalize, (walked.grown grown).append, LinkTree.walk_directories down' dirs]
    rfl
  · rcases free above below with none | directory
    · rw [none] at link
      cases link
    · rw [directory] at link
      cases link

end

/-- Where a path without links resolves in a grown tree, it exists or is missing at its end. -/
theorem exists_or_missingAtEnd {front rest : Parts} {left left' : Nat} {current last : List String}
    {grown : LinkTree String} (walked : tree.Walk links [] front left current)
    (more : tree.Grown grown) (later : grown.Walk left current rest left' last) (down : .up ∉ rest)
    (unlinked : ∀ above, above <+: current ++ Parts.names rest →
      ∀ absolute target, tree.entry above ≠ some (.link absolute target)) :
    tree.canonicalize links (front ++ rest) ≠ none ∨ MissingAtEnd tree links (front ++ rest) := by
  have solid : tree.Solid current := walked.solid (.inl tree.root)
  induction rest generalizing front current with
  | nil =>
    rw [List.append_nil, LinkTree.canonicalize_eq_some.mpr ⟨left, walked⟩]
    exact .inl (Option.some_ne_none _)
  | cons part rest ih =>
    rw [List.mem_cons, not_or] at down
    rw [List.append_cons]
    cases later with
    | here dir next =>
      have stay := (walked.append [.here]).trans (LinkTree.walk_here (more.dir solid dir))
      rw [LinkTree.walk_nil, LinkTree.walk_iff] at stay
      exact ih stay next down.2 unlinked solid
    | up dir next => exact absurd rfl down.1
    | @enter _ _ name _ _ _ dir found next =>
      have own := unlinked (current ++ [name]) (by simp)
      cases hentry : tree.entry (current ++ [name]) with
      | none =>
        refine .inr ⟨front, name, rest, current, by simp, down.2, ?_, more.dir solid dir, hentry⟩
        exact LinkTree.canonicalize_eq_some.mpr ⟨left, walked⟩
      | some node =>
        have there : tree.Solid (current ++ [name]) := by
          cases node with
          | directory => exact .inl hentry
          | file => exact .inr hentry
          | link absolute target => exact absurd hentry (own absolute target)
        have enter := (walked.append [.name name]).trans
          (LinkTree.walk_enter (more.dir solid dir) there)
        rw [LinkTree.walk_nil, LinkTree.walk_iff] at enter
        refine ih enter next down.2 ?_ there
        simpa using unlinked
    | @follow _ _ name _ _ _ absolute target dir link next =>
      exact absurd (more.link link) (unlinked (current ++ [name]) (by simp) absolute target)

/-- A rule for a path names what the path leads to once its missing parents are plain directories,
exactly where the path exists or is missing from one name on without going up again. -/
theorem canonicalizeLenient_iff (tree : LinkTree String) (links : Nat) (path : Parts) :
    NamesCreated tree links path (canonicalizeLenient tree links path) ↔
      tree.canonicalize links path ≠ none ∨ MissingAtEnd tree links path := by
  cases hcanonical : tree.canonicalize links path with
  | some names =>
    simp only [canonicalizeLenient, hcanonical, ne_eq, reduceCtorEq, not_false_eq_true, true_or,
      iff_true]
    exact namesCreated_of_canonicalize hcanonical
  | none =>
    simp only [canonicalizeLenient, hcanonical, ne_eq, not_true_eq_false, false_or]
    constructor
    · rintro ⟨names, hresult, ⟨grown, more, hgrown⟩, unlinked⟩
      rcases lenientLoop_cases (List.append_nil path).symm List.not_mem_nil with
        ⟨front, rest, canonical, rfl, down, hfront, hloop⟩ | ⟨up, hloop⟩
      · obtain rfl : canonical ++ Parts.names rest = names :=
          Parts.ofNames_inj (hloop.symm.trans hresult)
        obtain ⟨left, walked⟩ := LinkTree.canonicalize_eq_some.mp hfront
        obtain ⟨left', whole⟩ := LinkTree.canonicalize_eq_some.mp hgrown
        have later := LinkTree.walk_iff.mpr whole
        rw [(walked.grown more).append, LinkTree.walk_iff] at later
        exact (exists_or_missingAtEnd walked more later down unlinked).resolve_left (· hcanonical)
      · rw [hloop.symm.trans hresult] at up
        exact absurd up Parts.up_not_mem_ofNames
    · rintro ⟨front, first, rest, directory, rfl, down, hfront, dir, new⟩
      rw [(lenientLoop_new hfront new down).2, List.append_nil]
      exact namesCreated_new hfront dir new down

end

/-- A host where `/tmp` is a link to `private/tmp`. -/
def linkedTmp : LinkTree String where
  entry path :=
    if path = [] ∨ path = ["private"] ∨ path = ["private", "tmp"] then some .directory
    else if path = ["tmp"] then some (.link false [.name "private", .name "tmp"])
    else none
  root := if_pos (.inl rfl)
  closed := by
    intro path name h
    have held : path ++ [name] ∈ [["private"], ["private", "tmp"], ["tmp"]] := by
      by_contra away
      simp only [List.mem_cons, List.not_mem_nil, or_false, not_or] at away
      simp [away] at h
    have above : path = [] ∨ path = ["private"] := by
      have cut : (path ++ [name]).dropLast = path := List.dropLast_concat
      rw [← cut]
      simp only [List.mem_cons, List.not_mem_nil, or_false] at held
      rcases held with held | held | held <;> simp [held]
    rcases above with rfl | rfl <;> simp

/-- A rule that goes up from a missing directory stays as it was given, links and all. -/
theorem canonicalizeLenient_up : ¬NamesCreated linkedTmp 40 (.ofText "/tmp/missing/../secret".toList)
    (canonicalizeLenient linkedTmp 40 (.ofText "/tmp/missing/../secret".toList)) := by
  have parts : Parts.ofText "/tmp/missing/../secret".toList =
      [.name "tmp", .name "missing", .up, .name "secret"] := by decide
  have stays : canonicalizeLenient linkedTmp 40 [.name "tmp", .name "missing", .up, .name "secret"] =
      [.name "tmp", .name "missing", .up, .name "secret"] := by
    have fails : linkedTmp.canonicalize 40 [.name "tmp", .name "missing", .up, .name "secret"] =
        none := by decide
    have fails' : linkedTmp.canonicalize 40 [.name "tmp", .name "missing", .up] = none := by decide
    have cut : Parts.nextBack [.name "tmp", .name "missing", .up, .name "secret"] =
        some ([.name "tmp", .name "missing", .up], .name "secret") := by decide
    rw [canonicalizeLenient, fails]
    dsimp only
    rw [lenientLoop_cut fails cut, lenientLoop_given fails' (by decide)]
  rw [parts, stays]
  rintro ⟨names, result, -⟩
  have up : PathPart.up ∈ Parts.ofNames names := by
    rw [← result]
    simp
  exact Parts.up_not_mem_ofNames up

end Beez.Sandbox
