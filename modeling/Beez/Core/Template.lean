import Beez.Core.Task
import Beez.Lib.Fallible

/-! # Texts that read the output of other tasks -/

namespace Beez.Core

/-- One captured stream of a finished task. -/
inductive TaskOutput where
  | stdout | stderr
deriving DecidableEq, Repr

def TaskOutput.all : List TaskOutput := [.stdout, .stderr]

def TaskOutput.name : TaskOutput → Text
  | .stdout => "stdout".toList
  | .stderr => "stderr".toList

theorem TaskOutput.dot_notMem_name (output : TaskOutput) : '.' ∉ output.name := by
  cases output <;> decide

@[simp] theorem TaskOutput.find?_name (output : TaskOutput) :
    TaskOutput.all.find? (·.name = output.name) = some output := by
  cases output <;> decide

/-- A placeholder that reads one output stream of another task. -/
structure OutputReference where
  task : TaskId
  output : TaskOutput
deriving DecidableEq

def OutputReference.display (reference : OutputReference) : Text :=
  "\x7b\x7b tasks.".toList ++ reference.task.text ++ ".".toList ++ reference.output.name ++ " \x7d\x7d".toList

/-- Reports a placeholder that names no task output. -/
structure TemplateError where
  placeholder : Text
deriving DecidableEq

def TemplateError.display (error : TemplateError) : Text :=
  error.placeholder ++ " is not a task output; write ".toList ++
    "\x7b\x7b tasks.<id>.stdout \x7d\x7d or \x7b\x7b tasks.<id>.stderr \x7d\x7d".toList

inductive Segment where
  | text (text : Text)
  | output (reference : OutputReference)
deriving DecidableEq

/-- Text that may read the output of other tasks. -/
structure Template where
  segments : List Segment
deriving DecidableEq

namespace Template

def opening : Text := "\x7b\x7b".toList
def closing : Text := "\x7d\x7d".toList
def tasksPrefix : Text := "tasks.".toList

/-- Appends literal text, joined to the text before it. -/
def pushText (segments : List Segment) (text : Text) : List Segment :=
  if text = [] then segments
  else match segments.getLast? with
    | some (.text last) => segments.dropLast ++ [.text (last ++ text)]
    | _ => segments ++ [.text text]

/-- The text before the first closed placeholder, the placeholder with its braces, and the
rest. -/
def nextPlaceholder (text : Text) : Option (Text × Text × Text) := do
  let (before, fromOpen) ← Text.splitAt opening text
  let (inner, fromClose) ← Text.splitAt closing (fromOpen.drop opening.length)
  return (before, opening ++ inner ++ closing, fromClose.drop closing.length)

/-- Reads a task reference, or nothing when the placeholder is none at all. -/
def parseReference (placeholder : Text) : Option (Except TemplateError OutputReference) := do
  let inner ← Text.stripSuffix closing (← Text.stripPrefix opening placeholder)
  let path ← Text.stripPrefix tasksPrefix (Text.trim inner)
  match Text.rsplitOnce '.' path with
  | none => return .error ⟨placeholder⟩
  | some (task, output) =>
    match TaskOutput.all.find? (·.name = output), TaskId.fromStr task with
    | some output, .ok task => return .ok ⟨task, output⟩
    | _, _ => return .error ⟨placeholder⟩

theorem nextPlaceholder_length {text before placeholder after : Text}
    (h : nextPlaceholder text = some (before, placeholder, after)) :
    after.length + 4 ≤ text.length := by
  simp only [nextPlaceholder, Option.bind_eq_bind, Option.bind_eq_some_iff, Prod.exists,
    Option.pure_def, Option.some.injEq, Prod.mk.injEq] at h
  obtain ⟨before', fromOpen, h1, inner, fromClose, h2, rfl, rfl, rfl⟩ := h
  have e1 := congrArg List.length (Text.splitAt_append h1)
  have e2 := congrArg List.length (Text.splitAt_append h2)
  have l1 := (Text.splitAt_prefix h1).length_le
  have l2 := (Text.splitAt_prefix h2).length_le
  simp only [List.length_append, List.length_drop] at e1 e2
  simp [opening, closing] at l1 l2 e2 ⊢
  omega

/-- The loop of `parse`. Each placeholder shortens the rest, so `fuel` never runs out before
the text does. -/
def parseFrom : Nat → List Segment → Text → Except TemplateError (List Segment)
  | 0, segments, rest => .ok (pushText segments rest)
  | fuel + 1, segments, rest =>
    match nextPlaceholder rest with
    | none => .ok (pushText segments rest)
    | some (literal, placeholder, after) =>
      match parseReference placeholder with
      | some (.ok reference) =>
        parseFrom fuel (pushText segments literal ++ [.output reference]) after
      | some (.error error) => .error error
      | none => parseFrom fuel (pushText (pushText segments literal) placeholder) after

/-- Splits `text` into literal text and output references. -/
def parse (text : Text) : Except TemplateError Template :=
  return ⟨← parseFrom text.length [] text⟩

/-- More fuel than the length of the text changes nothing. -/
theorem parseFrom_fuel {fuel : Nat} {segments : List Segment} {rest : Text}
    (h : rest.length ≤ fuel) :
    parseFrom (fuel + 1) segments rest = parseFrom fuel segments rest := by
  induction fuel generalizing segments rest with
  | zero =>
    have : nextPlaceholder rest = none := by
      cases hn : nextPlaceholder rest with
      | none => rfl
      | some found => have := nextPlaceholder_length hn; omega
    simp [parseFrom, this]
  | succ fuel ih =>
    rw [parseFrom, parseFrom]
    cases hn : nextPlaceholder rest with
    | none => rfl
    | some found =>
      obtain ⟨literal, placeholder, after⟩ := found
      have := nextPlaceholder_length hn
      have ih : ∀ segments, parseFrom (fuel + 1) segments after = parseFrom fuel segments after :=
        fun segments => ih (by omega)
      simp only [ih]

def references (template : Template) : List OutputReference :=
  template.segments.filterMap fun
    | .output reference => some reference
    | .text _ => none

/-- The loop of `render`. -/
def renderSegments (lookup : OutputReference → Option Text) :
    List Segment → Except OutputReference Text
  | [] => .ok []
  | .text text :: rest => do return text ++ (← renderSegments lookup rest)
  | .output reference :: rest =>
    match lookup reference with
    | some output => do return output ++ (← renderSegments lookup rest)
    | none => .error reference

/-- Replaces every reference with the output `lookup` returns for it.

Fails with the first reference `lookup` has no output for. -/
def render (template : Template) (lookup : OutputReference → Option Text) :
    Except OutputReference Text :=
  renderSegments lookup template.segments

/-- The segments side by side, each reference replaced by what `output` gives for it. -/
def fill (template : Template) (output : OutputReference → Text) : Text :=
  template.segments.flatMap fun
    | .text text => text
    | .output reference => output reference

theorem render_eq_fill {template : Template} {lookup : OutputReference → Option Text}
    (output : OutputReference → Text)
    (h : ∀ reference ∈ template.references, lookup reference = some (output reference)) :
    template.render lookup = .ok (template.fill output) := by
  obtain ⟨segments⟩ := template
  simp only [render, fill, references] at h ⊢
  induction segments with
  | nil => rfl
  | cons segment rest ih =>
    cases segment with
    | text text =>
      rw [renderSegments, ih (by simpa using h)]
      rfl
    | output reference =>
      simp only [List.filterMap_cons, List.mem_cons, forall_eq_or_imp] at h
      rw [renderSegments, h.1, ih h.2]
      rfl

/-! ## The pieces of a text -/

/-- A stretch of a text, with the reference when it is a placeholder that reads an output. -/
inductive Piece where
  | literal (text : Text)
  | placeholder (text : Text) (reference : OutputReference)

def Piece.text : Piece → Text
  | .literal text | .placeholder text _ => text

def Piece.reference : Piece → Option OutputReference
  | .literal _ => none
  | .placeholder _ reference => some reference

def Piece.filled (output : OutputReference → Text) : Piece → Text
  | .literal text => text
  | .placeholder _ reference => output reference

/-- The pieces of a text, from left to right. A closed pair of braces that is no reference at
all stays literal. -/
inductive Reads : Text → List Piece → Prop
  | rest {text : Text} (none : nextPlaceholder text = none) : Reads text [.literal text]
  | reference {text before placeholder after : Text} {reference : OutputReference}
    {pieces : List Piece} (next : nextPlaceholder text = some (before, placeholder, after))
    (parsed : parseReference placeholder = some (.ok reference)) (more : Reads after pieces) :
    Reads text (.literal before :: .placeholder placeholder reference :: pieces)
  | braces {text before placeholder after : Text} {pieces : List Piece}
    (next : nextPlaceholder text = some (before, placeholder, after))
    (parsed : parseReference placeholder = none) (more : Reads after pieces) :
    Reads text (.literal before :: .literal placeholder :: pieces)

theorem nextPlaceholder_append {text before placeholder after : Text}
    (h : nextPlaceholder text = some (before, placeholder, after)) :
    before ++ (placeholder ++ after) = text := by
  simp only [nextPlaceholder, Option.bind_eq_bind, Option.bind_eq_some_iff, Prod.exists,
    Option.pure_def, Option.some.injEq, Prod.mk.injEq] at h
  obtain ⟨before', fromOpen, h1, inner, fromClose, h2, rfl, rfl, rfl⟩ := h
  have e1 := Text.splitAt_append h1
  have e2 := Text.splitAt_append h2
  obtain ⟨rest, rfl⟩ := Text.splitAt_prefix h1
  obtain ⟨rest', rfl⟩ := Text.splitAt_prefix h2
  rw [List.drop_left] at e2
  rw [List.drop_left, ← e1, ← e2]
  simp

theorem Reads.text {text : Text} {pieces : List Piece} (h : Reads text pieces) :
    pieces.flatMap Piece.text = text := by
  induction h with
  | rest _ => simp [Piece.text]
  | reference next _ _ ih => simpa [Piece.text, ih] using nextPlaceholder_append next
  | braces next _ _ ih => simpa [Piece.text, ih] using nextPlaceholder_append next

theorem fill_pushText (segments : List Segment) (text : Text) (output : OutputReference → Text) :
    fill ⟨pushText segments text⟩ output = fill ⟨segments⟩ output ++ text := by
  rw [pushText]
  split
  · rename_i hempty
    simp [hempty]
  · split
    · rename_i last hlast
      obtain ⟨init, rfl⟩ := List.getLast?_eq_some_iff.mp hlast
      simp [fill]
    · simp [fill]

theorem references_pushText (segments : List Segment) (text : Text) :
    references ⟨pushText segments text⟩ = references ⟨segments⟩ := by
  rw [pushText]
  split
  · rfl
  · split
    · rename_i last hlast
      obtain ⟨init, rfl⟩ := List.getLast?_eq_some_iff.mp hlast
      simp [references]
    · simp [references]

/-- `segments'` is `segments` with `pieces` put after it. -/
structure Extends (segments segments' : List Segment) (pieces : List Piece) : Prop where
  fill : ∀ output, Template.fill ⟨segments'⟩ output =
    Template.fill ⟨segments⟩ output ++ pieces.flatMap (Piece.filled output)
  references : Template.references ⟨segments'⟩ =
    Template.references ⟨segments⟩ ++ pieces.filterMap Piece.reference

theorem Extends.literal (segments : List Segment) (text : Text) :
    Extends segments (pushText segments text) [.literal text] :=
  ⟨by simp [fill_pushText, Piece.filled], by simp [references_pushText, Piece.reference]⟩

theorem Extends.placeholder (segments : List Segment) (text : Text) (reference : OutputReference) :
    Extends segments (segments ++ [.output reference]) [.placeholder text reference] :=
  ⟨by simp [Template.fill, Piece.filled], by simp [Template.references, Piece.reference]⟩

theorem Extends.append {a b c : List Segment} {before after : List Piece}
    (hab : Extends a b before) (hbc : Extends b c after) : Extends a c (before ++ after) :=
  ⟨fun output => by rw [hbc.fill, hab.fill, List.flatMap_append, List.append_assoc],
    by rw [hbc.references, hab.references, List.filterMap_append, List.append_assoc]⟩

theorem parseFrom_reads {fuel : Nat} {segments segments' : List Segment} {rest : Text}
    (hfuel : rest.length ≤ fuel) (h : parseFrom fuel segments rest = .ok segments') :
    ∃ pieces, Reads rest pieces ∧ Extends segments segments' pieces := by
  induction fuel generalizing segments rest with
  | zero =>
    have hnone : nextPlaceholder rest = none := by
      cases hn : nextPlaceholder rest with
      | none => rfl
      | some found => have := nextPlaceholder_length hn; omega
    rw [parseFrom, Except.ok.injEq] at h
    exact ⟨_, .rest hnone, h ▸ .literal segments rest⟩
  | succ fuel ih =>
    rw [parseFrom] at h
    split at h
    · rename_i hnone
      rw [Except.ok.injEq] at h
      exact ⟨_, .rest hnone, h ▸ .literal segments rest⟩
    · rename_i before placeholder after hn
      have := nextPlaceholder_length hn
      split at h
      · rename_i reference hparse
        obtain ⟨pieces, hreads, hext⟩ := ih (by omega) h
        exact ⟨_, .reference hn hparse hreads,
          (Extends.literal segments before).append ((Extends.placeholder _ _ _).append hext)⟩
      · cases h
      · rename_i hparse
        obtain ⟨pieces, hreads, hext⟩ := ih (by omega) h
        exact ⟨_, .braces hn hparse hreads,
          (Extends.literal segments before).append ((Extends.literal _ _).append hext)⟩

/-- A text that parses is filled piece by piece. -/
theorem parse_reads {text : Text} {template : Template} (h : parse text = .ok template) :
    ∃ pieces, Reads text pieces ∧
      (∀ output, template.fill output = pieces.flatMap (Piece.filled output)) ∧
      template.references = pieces.filterMap Piece.reference := by
  rw [parse, Lib.bind_eq_ok] at h
  obtain ⟨segments, hparse, h⟩ := h
  rw [Lib.pure_eq_ok] at h
  subst h
  obtain ⟨pieces, hreads, hext⟩ := parseFrom_reads (Nat.le_refl _) hparse
  exact ⟨pieces, hreads, hext.fill, hext.references⟩

end Template

end Beez.Core
