import Beez.Record.Recorder
import Beez.Record.Time

/-! # How a run is written

The lines of the terminal and those of the run log are made of the same parts. -/

open Beez.Core Beez.Lib Beez.Runner

namespace Beez.Record

/-! ## Columns -/

/-- `{text:<width$}`. -/
def column (width : Nat) (text : Text) : Text := text.rightpad width ' '

def verbWidth : Nat := 8

/-- One of Beez's own lines: the status word in its own column, then the message. -/
def statusLine (verb : String) (message : Text) : Text :=
  column verbWidth verb.toList ++ ("  ".toList ++ message)

/-- The mark that stands between a task label and a line of `stream`. -/
def streamMark : OutputStream → Text
  | .stdout => ['│']
  | .stderr => ['┊']

/-- `%Y-%m-%dT%H:%M:%S%.3fZ`. -/
def utc (time : Int) : Text :=
  let date := Date.ofDays (millisecond time / 86400000)
  let clock := (millisecond time % 86400000).toNat
  yearText date.year ++ ('-' :: padded 2 date.month ++ ('-' :: padded 2 date.day ++
    ('T' :: padded 2 (clock / 3600000) ++ (':' :: padded 2 (clock / 60000 % 60) ++
      (':' :: padded 2 (clock / 1000 % 60) ++ ('.' :: padded 3 (clock % 1000) ++ ['Z']))))))

example : utc 1700000000042000000 = "2023-11-14T22:13:20.042Z".toList := by decide

/-- The task labels of one run, in declaration order. -/
structure Labels where
  labels : List Text

namespace Labels

/-- Width of the label column, as wide as the longest label. -/
def width (labels : Labels) : Nat := (labels.labels.map fun label => (Text.toUtf8 label).length).foldr max 0

/-- The label of the task at `index`, or the index for a task it does not know. -/
def get (labels : Labels) (index : Nat) : Text := labels.labels[index]?.getD (decimal index)

end Labels

/-- `strip_suffix` of one byte. -/
def stripByte (byte : Byte) (line : List Byte) : List Byte :=
  if line.getLast? = some byte then line.dropLast else line

/-- Removes one trailing line ending, so a line can go in a column. -/
def trimNewline (line : List Byte) : List Byte := stripByte 13 (stripByte 10 line)

/-! ## Outcomes -/

/-- What the standard library writes: a time in seconds, and a category of errors. -/
structure Words where
  seconds : Nat → Text
  kind : ErrorKind → Text

/-- How a task ended, in one word. -/
def statusText : Option Int → Text
  | some 0 => "ok".toList
  | some code => "exit ".toList ++ (if code < 0 then ['-'] else []) ++ decimal code.natAbs
  | none => "signalled".toList

/-- How the outcome reads as a status line: the status word, then the message. -/
def TaskOutcome.status (words : Words) (outcome : TaskOutcome) (label : Text) : String × Text :=
  match outcome with
  | .started => ("Running", label)
  | .blocked => ("Blocked", label)
  | .finished exitStatus elapsed =>
    (if outcome.succeeded then "Finished" else "Failed",
      label ++ (" in ".toList ++ (words.seconds elapsed ++ (" (".toList ++ (statusText exitStatus ++ [')'])))))
  | .failed error elapsed =>
    ("Failed", label ++ (" in ".toList ++ (words.seconds elapsed ++ (" (".toList ++ (words.kind error ++ [')'])))))

/-! ## Summaries -/

/-- The counts that close a run. -/
def counts (passed failed blocked : Nat) : Text :=
  ", ".toList.intercalate (
    (decimal passed ++ " passed".toList) ::
      ((if 0 < failed then [decimal failed ++ " failed".toList] else []) ++
        if 0 < blocked then [decimal blocked ++ " blocked".toList] else []))

/-- The counts and the time, as the line that closes a run writes them. -/
def RunTally.summary (tally : RunTally) (elapsed : Text) : Text :=
  counts tally.passed tally.failed tally.blocked ++ " in ".toList ++ elapsed

end Beez.Record
