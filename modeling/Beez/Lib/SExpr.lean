import Mathlib.Tactic.Common

/-! # S-expressions

A reader takes one character at a time. A backslash in a string stands before a character that is
meant as it is, a raw string has no such characters, and a comment runs to the end of its line.
-/

namespace Beez.Lib

inductive SExpr where
  | atom (name : List Char)
  | string (text : List Char)
  /-- A string after `#`, in which a backslash is one. -/
  | raw (text : List Char)
  | list (items : List SExpr)

namespace SExpr

/-! ## Writing -/

def escape (text : List Char) : List Char :=
  text.flatMap fun c => if c = '"' ∨ c = '\\' then ['\\', c] else [c]

mutual

def write : SExpr → List Char
  | atom name => name
  | string text => '"' :: escape text ++ ['"']
  | raw text => '#' :: '"' :: text ++ ['"']
  | list items => '(' :: (writeItems items).tail ++ [')']

/-- Each item after a space. -/
def writeItems : List SExpr → List Char
  | [] => []
  | item :: items => ' ' :: write item ++ writeItems items

end

/-- One expression a line. -/
def writeLines (items : List SExpr) : List Char := items.flatMap fun item => write item ++ ['\n']

/-! ## Reading -/

/-- The character ends a name. -/
def isMark (c : Char) : Bool := c.isWhitespace || c == '(' || c == ')' || c == '"' || c == ';'

inductive Mode where
  | between | comment | hash
  | name (front : List Char)
  | string (front : List Char)
  | escape (front : List Char)
  | raw (front : List Char)

/-- What has been read: the items of the innermost list that is open, and those of the lists around
it. -/
structure Reader where
  mode : Mode
  items : List SExpr
  outer : List (List SExpr)

namespace Reader

def start : Reader := ⟨.between, [], []⟩

def add (reader : Reader) (item : SExpr) : Reader :=
  ⟨.between, reader.items ++ [item], reader.outer⟩

/-- A mark that stands between expressions. -/
def mark (reader : Reader) (c : Char) : Option Reader :=
  if c = '(' then some ⟨.between, [], reader.items :: reader.outer⟩
  else if c = ')' then
    match reader.outer with
    | [] => none
    | items :: outer => some ⟨.between, items ++ [list reader.items], outer⟩
  else if c = '"' then some { reader with mode := .string [] }
  else if c = ';' then some { reader with mode := .comment }
  else some { reader with mode := .between }

def step (reader : Reader) (c : Char) : Option Reader :=
  match reader.mode with
  | .between =>
    if isMark c then reader.mark c
    else if c = '#' then some { reader with mode := .hash }
    else some { reader with mode := .name [c] }
  | .comment => some (if c = '\n' then { reader with mode := .between } else reader)
  | .hash =>
    if c = '"' then some { reader with mode := .raw [] }
    else if isMark c then (reader.add (.atom ['#'])).mark c
    else some { reader with mode := .name ['#', c] }
  | .name front =>
    if isMark c then (reader.add (.atom front)).mark c
    else some { reader with mode := .name (front ++ [c]) }
  | .string front =>
    if c = '\\' then some { reader with mode := .escape front }
    else if c = '"' then some (reader.add (.string front))
    else some { reader with mode := .string (front ++ [c]) }
  | .escape front => some { reader with mode := .string (front ++ [c]) }
  | .raw front =>
    if c = '"' then some (reader.add (.raw front))
    else some { reader with mode := .raw (front ++ [c]) }

/-- The expressions of a whole text, unless a string or a list is still open. -/
def finish (reader : Reader) : Option (List SExpr) :=
  match reader.mode, reader.outer with
  | .between, [] | .comment, [] => some reader.items
  | .hash, [] => some (reader.add (.atom ['#'])).items
  | .name front, [] => some (reader.add (.atom front)).items
  | _, _ => none

def takes (reader : Reader) (text : List Char) : Option Reader := text.foldlM step reader

end Reader

def read (text : List Char) : Option (List SExpr) := (Reader.start.takes text).bind Reader.finish

/-! ## What is written reads back -/

/-- A name that reads as one: no mark is in it, and it starts no raw string. -/
structure Named (name : List Char) : Prop where
  nonempty : name ≠ []
  plain : ∀ c ∈ name, isMark c = false
  first : name.head? ≠ some '#'

instance (name : List Char) : Decidable (Named name) :=
  decidable_of_iff
    (name ≠ [] ∧ name.all (fun c => !isMark c) = true ∧ name.head? ≠ some '#')
    ⟨fun h => ⟨h.1, by simpa using h.2.1, h.2.2⟩, fun h => ⟨h.nonempty, by simpa using h.plain, h.first⟩⟩

/-- Names are names, and no raw string holds a quote. -/
inductive Tidy : SExpr → Prop
  | atom {name : List Char} (named : Named name) : Tidy (.atom name)
  | string (text : List Char) : Tidy (.string text)
  | raw {text : List Char} (closed : '"' ∉ text) : Tidy (.raw text)
  | list {items : List SExpr} (all : ∀ item ∈ items, Tidy item) : Tidy (.list items)

namespace Reader

variable {reader next : Reader} {text rest : List Char} {items : List SExpr}

theorem takes_cons (reader : Reader) (c : Char) (text : List Char) :
    reader.takes (c :: text) = (reader.step c).bind fun next => next.takes text :=
  List.foldlM_cons

theorem takes_append (reader : Reader) (text rest : List Char) :
    reader.takes (text ++ rest) = (reader.takes text).bind fun next => next.takes rest :=
  List.foldlM_append

/-- The reader stands where it may have to end a name. -/
def Between (reader : Reader) (items : List SExpr) (outer : List (List SExpr)) : Prop :=
  reader = ⟨.between, items, outer⟩ ∨
    ∃ front rest, items = front ++ [.atom rest] ∧ reader = ⟨.name rest, front, outer⟩

theorem Between.step_mark {outer : List (List SExpr)} (between : Between reader items outer)
    {c : Char} (hmark : isMark c = true) : reader.step c = Reader.mark ⟨.between, items, outer⟩ c := by
  rcases between with rfl | ⟨front, name, rfl, rfl⟩
  · simp [step, hmark]
  · simp [step, hmark, add]

theorem takes_name {name : List Char} (plain : ∀ c ∈ name, isMark c = false) (front : List Char)
    (items : List SExpr) (outer : List (List SExpr)) :
    takes ⟨.name front, items, outer⟩ name = some ⟨.name (front ++ name), items, outer⟩ := by
  induction name generalizing front with
  | nil => simp [takes]
  | cons c name ih =>
    rw [List.forall_mem_cons] at plain
    rw [takes_cons]
    simp only [step, plain.1, Bool.false_eq_true, if_false, Option.bind_some]
    rw [ih plain.2, List.append_assoc, List.singleton_append]

theorem takes_string (text : List Char) (front : List Char) (items : List SExpr)
    (outer : List (List SExpr)) :
    takes ⟨.string front, items, outer⟩ (SExpr.escape text) =
      some ⟨.string (front ++ text), items, outer⟩ := by
  induction text generalizing front with
  | nil => simp [takes, SExpr.escape]
  | cons c text ih =>
    have rest := ih (front ++ [c])
    rw [List.append_assoc, List.singleton_append] at rest
    unfold SExpr.escape at *
    rw [List.flatMap_cons, takes_append]
    by_cases special : c = '"' ∨ c = '\\'
    · rw [if_pos special]
      simpa [takes_cons, step, takes] using rest
    · rw [if_neg special]
      rw [not_or] at special
      simpa [takes_cons, step, takes, special.1, special.2] using rest

theorem takes_raw {text : List Char} (closed : '"' ∉ text) (front : List Char)
    (items : List SExpr) (outer : List (List SExpr)) :
    takes ⟨.raw front, items, outer⟩ text = some ⟨.raw (front ++ text), items, outer⟩ := by
  induction text generalizing front with
  | nil => simp [takes]
  | cons c text ih =>
    rw [List.mem_cons, not_or] at closed
    rw [takes_cons]
    simp only [step, Ne.symm closed.1, if_false, Option.bind_some]
    rw [ih closed.2, List.append_assoc, List.singleton_append]

/-- After a space the items come one by one. -/
theorem takes_items {outer : List (List SExpr)} {written : List SExpr}
    (each : ∀ item ∈ written, ∀ items outer, ∃ next,
      takes ⟨.between, items, outer⟩ (write item) = some next ∧ Between next (items ++ [item]) outer)
    (between : Between reader items outer) :
    ∃ next, reader.takes (writeItems written) = some next ∧
      Between next (items ++ written) outer := by
  induction written generalizing reader items with
  | nil => exact ⟨reader, rfl, by rwa [List.append_nil]⟩
  | cons item written ih =>
    rw [List.forall_mem_cons] at each
    obtain ⟨mid, htakes, hmid⟩ := each.1 items outer
    obtain ⟨next, hrest, hnext⟩ := ih each.2 hmid
    refine ⟨next, ?_, by rwa [List.append_assoc] at hnext⟩
    rw [writeItems, List.cons_append, takes_cons, between.step_mark rfl]
    change takes ⟨.between, items, outer⟩ (write item ++ writeItems written) = some next
    rw [takes_append, htakes, Option.bind_some, hrest]

theorem takes_list {outer : List (List SExpr)} {written : List SExpr}
    (each : ∀ item ∈ written, ∀ items outer, ∃ next,
      takes ⟨.between, items, outer⟩ (write item) = some next ∧
        Between next (items ++ [item]) outer) :
    takes ⟨.between, items, outer⟩ (write (list written)) =
      some ⟨.between, items ++ [list written], outer⟩ := by
  have inner : ∃ next, takes ⟨.between, [], items :: outer⟩ (writeItems written).tail = some next ∧
      Between next written (items :: outer) := by
    cases written with
    | nil => exact ⟨_, rfl, .inl rfl⟩
    | cons item written =>
      rw [List.forall_mem_cons] at each
      obtain ⟨mid, htakes, hmid⟩ := each.1 [] (items :: outer)
      obtain ⟨next, hrest, hnext⟩ := takes_items each.2 hmid
      refine ⟨next, ?_, hnext⟩
      rw [writeItems, List.cons_append, List.tail_cons, takes_append, htakes, Option.bind_some, hrest]
  obtain ⟨next, htakes, hnext⟩ := inner
  rw [write, List.cons_append, takes_cons]
  change (takes ⟨.between, [], items :: outer⟩ ((writeItems written).tail ++ [')'])) = _
  rw [takes_append, htakes, Option.bind_some, takes_cons, hnext.step_mark rfl]
  rfl

theorem takes_write {item : SExpr} (tidy : Tidy item) : ∀ (items : List SExpr)
    (outer : List (List SExpr)), ∃ next,
      takes ⟨.between, items, outer⟩ (write item) = some next ∧
        Between next (items ++ [item]) outer := by
  induction tidy with
  | @atom name named =>
    intro items outer
    obtain ⟨nonempty, plain, first⟩ := named
    cases name with
    | nil => exact absurd rfl nonempty
    | cons c name =>
      rw [List.forall_mem_cons] at plain
      have hash : c ≠ '#' := by simpa using first
      refine ⟨⟨.name (c :: name), items, outer⟩, ?_, .inr ⟨items, _, rfl, rfl⟩⟩
      rw [write, takes_cons]
      simp only [step, plain.1, hash, Bool.false_eq_true, if_false, Option.bind_some]
      exact takes_name plain.2 [c] items outer
  | string text =>
    refine fun items outer => ⟨⟨.between, items ++ [.string text], outer⟩, ?_, .inl rfl⟩
    rw [write, List.cons_append, takes_cons]
    change takes ⟨.string [], items, outer⟩ (SExpr.escape text ++ ['"']) = _
    rw [takes_append, takes_string]
    rfl
  | @raw text closed =>
    refine fun items outer => ⟨⟨.between, items ++ [.raw text], outer⟩, ?_, .inl rfl⟩
    rw [write, List.cons_append, List.cons_append, takes_cons]
    change takes ⟨.raw [], items, outer⟩ (text ++ ['"']) = _
    rw [takes_append, takes_raw closed]
    rfl
  | list _ ih => exact fun items outer => ⟨_, takes_list ih, .inl rfl⟩

end Reader

/-- The lines that are written read back as what they were written for. -/
theorem read_writeLines {written : List SExpr} (tidy : ∀ item ∈ written, Tidy item) :
    read (writeLines written) = some written := by
  have lines : ∀ items, Reader.takes ⟨.between, items, []⟩ (writeLines written) =
      some ⟨.between, items ++ written, []⟩ := by
    intro items
    unfold writeLines
    induction written generalizing items with
    | nil => simp [Reader.takes]
    | cons item written ih =>
      rw [List.forall_mem_cons] at tidy
      obtain ⟨next, htakes, hnext⟩ := Reader.takes_write tidy.1 items []
      rw [List.flatMap_cons, Reader.takes_append, Reader.takes_append, htakes, Option.bind_some,
        Reader.takes_cons, hnext.step_mark rfl]
      have rest := ih tidy.2 (items ++ [item])
      rw [List.append_assoc, List.singleton_append] at rest
      exact rest
  rw [read, Reader.start, lines, List.nil_append]
  rfl

end SExpr

end Beez.Lib
