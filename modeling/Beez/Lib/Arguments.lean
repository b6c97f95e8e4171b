import Mathlib.Data.List.Basic
import Mathlib.Tactic.Common

/-! # Options and what is left, as a program reads its arguments -/

namespace Beez.Lib

/-- The options of a program with their values, and what else it is given, each in order. -/
structure Arguments where
  options : List (List Char × Option (List Char))
  positional : List (List Char)
deriving DecidableEq

namespace Arguments

def addOption (name : List Char) (value : Option (List Char)) (arguments : Arguments) : Arguments :=
  { arguments with options := (name, value) :: arguments.options }

def addPositional (argument : List Char) (arguments : Arguments) : Arguments :=
  { arguments with positional := argument :: arguments.positional }

/-- The argument after which nothing is an option. -/
def mark : List Char := ['-', '-']

/-- Reads arguments for a program that knows which options take the next argument as their value.
Nothing when that argument is missing. -/
def read (valued : List Char → Bool) : List (List Char) → Option Arguments
  | [] => some ⟨[], []⟩
  | [argument] =>
    if argument = mark then some ⟨[], []⟩
    else if argument.head? = some '-' then
      if valued argument then none else some ⟨[(argument, none)], []⟩
    else some ⟨[], [argument]⟩
  | argument :: next :: rest =>
    if argument = mark then some ⟨[], next :: rest⟩
    else if argument.head? = some '-' then
      if valued argument then (read valued rest).map (addOption argument (some next))
      else (read valued (next :: rest)).map (addOption argument none)
    else (read valued (next :: rest)).map (addPositional argument)

/-- A text behind the mark if it could be an option. -/
def guarded (text : List Char) : List (List Char) :=
  if text.head? = some '-' then [mark, text] else [text]

variable (valued : List Char → Bool)

theorem read_flag {name : List Char} (named : name.head? = some '-') (apart : name ≠ mark)
    (plain : valued name = false) (rest : List (List Char)) :
    read valued (name :: rest) = (read valued rest).map (addOption name none) := by
  cases rest <;> simp [read, named, apart, plain, addOption]

theorem read_option {name : List Char} (named : name.head? = some '-') (apart : name ≠ mark)
    (takes : valued name = true) (value : List Char) (rest : List (List Char)) :
    read valued (name :: value :: rest) = (read valued rest).map (addOption name (some value)) := by
  simp [read, named, apart, takes]

theorem read_positional {argument : List Char} (plain : argument.head? ≠ some '-')
    (rest : List (List Char)) :
    read valued (argument :: rest) = (read valued rest).map (addPositional argument) := by
  have apart : argument ≠ mark := by
    rintro rfl
    exact plain rfl
  cases rest <;> simp [read, plain, apart, addPositional]

/-- Whatever the text is, it is read as itself. -/
theorem read_guarded (text : List Char) : read valued (guarded text) = some ⟨[], [text]⟩ := by
  unfold guarded
  split
  · simp [read]
  · next plain =>
    rw [read_positional valued plain]
    rfl

end Arguments

end Beez.Lib
