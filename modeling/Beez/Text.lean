import Beez.Lib.Decimal
import Mathlib.Algebra.Group.Nat.Defs
import Mathlib.Data.List.Basic
import Mathlib.Data.List.Infix
import Mathlib.Data.List.TakeWhile
import Mathlib.Tactic.Common

/-! # Texts, as the standard library cuts and decodes them -/

namespace Beez

/-- The characters of a string. -/
abbrev Text := List Char

instance : LawfulBEq Text := inferInstanceAs (LawfulBEq (List Char))

abbrev Byte := BitVec 8

namespace Text

/-! ## Search -/

/-- `text.find(pattern)`, as the text before the first match and the text from it on. -/
def splitAt (pattern : Text) : Text → Option (Text × Text)
  | [] => if pattern = [] then some ([], []) else none
  | c :: rest =>
    if pattern.isPrefixOf (c :: rest) then some ([], c :: rest)
    else (splitAt pattern rest).map fun (before, found) => (c :: before, found)

theorem splitAt_append {pattern text before found : Text}
    (h : splitAt pattern text = some (before, found)) : before ++ found = text := by
  induction text generalizing before with
  | nil =>
    simp only [splitAt] at h
    split at h <;> simp_all
  | cons c rest ih =>
    simp only [splitAt] at h
    split at h
    · simp_all
    · simp only [Option.map_eq_some_iff, Prod.mk.injEq] at h
      obtain ⟨⟨before', found'⟩, h', rfl, rfl⟩ := h
      simp [ih h']

theorem splitAt_prefix {pattern text before found : Text}
    (h : splitAt pattern text = some (before, found)) : pattern <+: found := by
  induction text generalizing before with
  | nil =>
    simp only [splitAt] at h
    split at h <;> simp_all
  | cons c rest ih =>
    simp only [splitAt] at h
    split at h
    · simp_all
    · simp only [Option.map_eq_some_iff, Prod.mk.injEq] at h
      obtain ⟨⟨before', found'⟩, h', rfl, rfl⟩ := h
      exact ih h'

/-- `text.strip_prefix(pattern)`. -/
def stripPrefix (pattern text : Text) : Option Text :=
  if pattern.isPrefixOf text then some (text.drop pattern.length) else none

theorem stripPrefix_cons (c : Char) (rest : Text) : stripPrefix [c] (c :: rest) = some rest := by
  simp [stripPrefix]

theorem stripPrefix_of_head {c : Char} {text : Text} (h : text.head? ≠ some c) :
    stripPrefix [c] text = none := by
  cases text with
  | nil => rfl
  | cons d rest =>
    have other : c ≠ d := by
      rintro rfl
      exact h rfl
    simp [stripPrefix, other]

/-- `text.strip_suffix(pattern)`. -/
def stripSuffix (pattern text : Text) : Option Text :=
  if pattern.isSuffixOf text then some (text.take (text.length - pattern.length)) else none

/-- `text.rsplit_once(separator)`. -/
def rsplitOnce (separator : Char) (text : Text) : Option (Text × Text) :=
  match text.reverse.dropWhile (· != separator) with
  | [] => none
  | _ :: before => some (before.reverse, (text.reverse.takeWhile (· != separator)).reverse)

theorem rsplitOnce_append {separator : Char} (before : Text) {after : Text}
    (h : separator ∉ after) :
    rsplitOnce separator (before ++ separator :: after) = some (before, after) := by
  have clear : ∀ c ∈ after.reverse, (c != separator) = true := by
    intro c hc
    simp only [bne_iff_ne]
    rintro rfl
    exact h (List.mem_reverse.mp hc)
  unfold rsplitOnce
  rw [List.reverse_append, List.reverse_cons, List.append_assoc, List.singleton_append,
    List.dropWhile_append_of_pos clear, List.takeWhile_append_of_pos clear]
  simp

theorem rsplitOnce_of_not_mem {separator : Char} {text : Text} (h : separator ∉ text) :
    rsplitOnce separator text = none := by
  have clear : text.reverse.dropWhile (· != separator) = [] := by
    rw [List.dropWhile_eq_nil_iff]
    intro c hc
    simp only [bne_iff_ne]
    rintro rfl
    exact h (List.mem_reverse.mp hc)
  rw [rsplitOnce, clear]

theorem rsplitOnce_some {separator : Char} {text before after : Text}
    (h : rsplitOnce separator text = some (before, after)) :
    text = before ++ separator :: after := by
  have whole := List.takeWhile_append_dropWhile (p := (· != separator)) (l := text.reverse)
  unfold rsplitOnce at h
  cases hrest : text.reverse.dropWhile (· != separator) with
  | nil => simp [hrest] at h
  | cons c rest =>
    have hc : c = separator := by
      have := List.head?_dropWhile_not (· != separator) text.reverse
      simpa [hrest] using this
    simp only [hrest, Option.some.injEq, Prod.mk.injEq] at h
    obtain ⟨rfl, rfl⟩ := h
    rw [hrest, hc] at whole
    have := congrArg List.reverse whole
    simpa using this.symm

/-- `text.split_once(separator)`. -/
def splitOnce (separator : Char) : Text → Option (Text × Text)
  | [] => none
  | c :: rest =>
    if c = separator then some ([], rest)
    else (splitOnce separator rest).map fun (before, after) => (c :: before, after)

theorem splitOnce_of_not_mem {separator : Char} {text : Text} (h : separator ∉ text) :
    splitOnce separator text = none := by
  induction text with
  | nil => rfl
  | cons c rest ih =>
    rw [List.mem_cons, not_or] at h
    rw [splitOnce, if_neg (Ne.symm h.1), ih h.2, Option.map_none]

theorem splitOnce_append {separator : Char} {before : Text} (h : separator ∉ before)
    (after : Text) : splitOnce separator (before ++ separator :: after) = some (before, after) := by
  induction before with
  | nil => simp [splitOnce]
  | cons c rest ih =>
    rw [List.mem_cons, not_or] at h
    rw [List.cons_append, splitOnce, if_neg (Ne.symm h.1), ih h.2, Option.map_some]

theorem splitOnce_some {separator : Char} {text before after : Text}
    (h : splitOnce separator text = some (before, after)) :
    text = before ++ separator :: after := by
  induction text generalizing before with
  | nil => cases h
  | cons c rest ih =>
    rw [splitOnce] at h
    split at h
    · rename_i same
      obtain ⟨rfl, rfl⟩ := Prod.mk.inj (Option.some.inj h)
      rw [same, List.nil_append]
    · obtain ⟨⟨before', after'⟩, hrest, heq⟩ := Option.map_eq_some_iff.mp h
      obtain ⟨rfl, rfl⟩ := Prod.mk.inj heq
      rw [ih hrest, List.cons_append]

theorem splitOnce_cases (separator : Char) (text : Text) :
    separator ∉ text ∧ splitOnce separator text = none ∨ ∃ before after, separator ∉ before ∧
      text = before ++ separator :: after ∧ splitOnce separator text = some (before, after) := by
  by_cases mem : separator ∈ text
  · obtain ⟨before, after, rfl, clear⟩ := List.eq_append_cons_of_mem mem
    exact .inr ⟨before, after, clear, rfl, splitOnce_append clear after⟩
  · exact .inl ⟨mem, splitOnce_of_not_mem mem⟩

/-- `text.split("\r\n")`. -/
def splitLines : Text → List Text
  | [] => [[]]
  | '\r' :: '\n' :: rest => [] :: splitLines rest
  | c :: rest => match splitLines rest with
    | [] => [[c]]
    | part :: parts => (c :: part) :: parts

/-- `text.split(separator)`. -/
def splitOn (separator : Char) : Text → List Text
  | [] => [[]]
  | c :: rest =>
    if c = separator then [] :: splitOn separator rest
    else match splitOn separator rest with
      | [] => [[c]]
      | part :: parts => (c :: part) :: parts

theorem splitOn_ne_nil (separator : Char) (text : Text) : splitOn separator text ≠ [] := by
  cases text with
  | nil => simp [splitOn]
  | cons c rest =>
    rw [splitOn]
    split
    · simp
    · split
      · simp
      · simp

theorem splitOn_of_not_mem {separator : Char} {text : Text} (h : separator ∉ text) :
    splitOn separator text = [text] := by
  induction text with
  | nil => rfl
  | cons c rest ih =>
    rw [List.mem_cons, not_or] at h
    rw [splitOn, if_neg (Ne.symm h.1), ih h.2]

theorem splitOn_append {separator : Char} {before : Text} (h : separator ∉ before)
    (after : Text) :
    splitOn separator (before ++ separator :: after) = before :: splitOn separator after := by
  induction before with
  | nil => simp [splitOn]
  | cons c rest ih =>
    rw [List.mem_cons, not_or] at h
    rw [List.cons_append, splitOn, if_neg (Ne.symm h.1), ih h.2]

/-! ## White space -/

/-- The `White_Space` characters of Unicode, which `trim` and `split_whitespace` use. -/
def isWhitespace (c : Char) : Bool :=
  let n := c.toNat
  (9 ≤ n && n ≤ 13) || n == 0x20 || n == 0x85 || n == 0xA0 || n == 0x1680 ||
    (0x2000 ≤ n && n ≤ 0x200A) || n == 0x2028 || n == 0x2029 || n == 0x202F || n == 0x205F ||
    n == 0x3000

/-- `text.trim()`. -/
def trim (text : Text) : Text :=
  ((text.dropWhile isWhitespace).reverse.dropWhile isWhitespace).reverse

/-- `text.trim_end_matches(characters)`. -/
def trimEndMatches (characters : List Char) (text : Text) : Text :=
  (text.reverse.dropWhile (· ∈ characters)).reverse

/-- `trimmed` is `text` without the `characters` at its end, and does not end in one. -/
def Trimmed (characters : List Char) (text trimmed : Text) : Prop :=
  ∃ cut, trimmed ++ cut = text ∧ (∀ c ∈ cut, c ∈ characters) ∧
    ∀ c, trimmed.getLast? = some c → c ∉ characters

theorem trimEndMatches_trimmed (characters : List Char) (text : Text) :
    Trimmed characters text (trimEndMatches characters text) := by
  refine ⟨(text.reverse.takeWhile (· ∈ characters)).reverse, ?_, fun c hc => ?_, fun c hc => ?_⟩
  · rw [trimEndMatches, ← List.reverse_append, List.takeWhile_append_dropWhile,
      List.reverse_reverse]
  · simpa using List.all_eq_true.mp List.all_takeWhile c (List.mem_reverse.mp hc)
  · rw [trimEndMatches, List.getLast?_reverse] at hc
    have := List.head?_dropWhile_not (fun c => decide (c ∈ characters)) text.reverse
    rw [hc] at this
    simpa using this

/-- `text.split_whitespace()`. -/
def splitWhitespace (text : Text) : List Text :=
  (text.foldr (fun c parts =>
    if isWhitespace c then [] :: parts
    else match parts with
      | [] => [[c]]
      | part :: parts => (c :: part) :: parts) [[]]).filter (· ≠ [])

/-- One word of a text. -/
structure Word (text : Text) : Prop where
  nonempty : text ≠ []
  clear : ∀ c ∈ text, isWhitespace c = false

section

/-- One step of `split_whitespace`, from the end of the text. -/
def whitespaceStep (c : Char) (parts : List Text) : List Text :=
  if isWhitespace c then [] :: parts
  else match parts with
    | [] => [[c]]
    | part :: parts => (c :: part) :: parts

theorem splitWhitespace_eq (text : Text) :
    splitWhitespace text = (text.foldr whitespaceStep [[]]).filter (· ≠ []) := rfl

theorem whitespaceStep_blank {c : Char} (blank : isWhitespace c = true) (parts : List Text) :
    whitespaceStep c parts = [] :: parts := if_pos blank

theorem whitespaceStep_visible {c : Char} (visible : isWhitespace c = false) (part : Text)
    (parts : List Text) : whitespaceStep c (part :: parts) = (c :: part) :: parts :=
  if_neg (by simp [visible])

theorem foldr_whitespaceStep {text : Text} (clear : ∀ c ∈ text, isWhitespace c = false)
    (part : Text) (parts : List Text) :
    text.foldr whitespaceStep (part :: parts) = (text ++ part) :: parts := by
  induction text with
  | nil => rfl
  | cons c rest ih =>
    rw [List.foldr_cons, ih fun c hc => clear c (List.mem_cons_of_mem _ hc),
      whitespaceStep_visible (clear c List.mem_cons_self), List.cons_append]

theorem splitWhitespace_word {text : Text} (word : Word text) : splitWhitespace text = [text] := by
  rw [splitWhitespace_eq, foldr_whitespaceStep word.clear]
  simp [word.nonempty]

theorem splitWhitespace_append {text : Text} (word : Word text) (rest : Text) :
    splitWhitespace (text ++ ' ' :: rest) = text :: splitWhitespace rest := by
  have blank : isWhitespace ' ' = true := by decide
  rw [splitWhitespace_eq, List.foldr_append, List.foldr_cons, whitespaceStep_blank blank,
    foldr_whitespaceStep word.clear]
  simp [word.nonempty, splitWhitespace_eq]

theorem word_of_mem_splitWhitespace {text word : Text} (h : word ∈ splitWhitespace text) :
    Word word := by
  rw [splitWhitespace_eq, List.mem_filter] at h
  refine ⟨by simpa using h.2, ?_⟩
  replace h := h.1
  induction text generalizing word with
  | nil =>
    obtain rfl : word = [] := by simpa using h
    simp
  | cons c rest ih =>
    rw [List.foldr_cons] at h
    cases hblank : isWhitespace c with
    | true =>
      rw [whitespaceStep_blank hblank] at h
      rcases List.mem_cons.mp h with rfl | h
      · simp
      · exact ih h
    | false =>
      cases hparts : rest.foldr whitespaceStep [[]] with
      | nil =>
        rw [hparts] at h
        obtain rfl : word = [c] := by simpa [whitespaceStep, hblank] using h
        simpa using hblank
      | cons part parts =>
        rw [hparts, whitespaceStep_visible hblank] at h
        rcases List.mem_cons.mp h with rfl | h
        · exact List.forall_mem_cons.mpr ⟨hblank, ih (hparts ▸ List.mem_cons_self)⟩
        · exact ih (hparts ▸ List.mem_cons_of_mem _ h)

end

def isDigits (text : Text) : Bool := text != [] && text.all fun c => '0' ≤ c && c ≤ '9'

theorem not_mem_of_isDigits {text : Text} (h : isDigits text) {c : Char}
    (other : ('0' ≤ c && c ≤ '9') = false) : c ∉ text := by
  intro mem
  rw [isDigits, Bool.and_eq_true, List.all_eq_true] at h
  rw [h.2 c mem] at other
  cases other

theorem isDigits_decimal (n : Nat) : isDigits (Lib.decimal n) = true := by
  have nonempty : Lib.decimal n ≠ [] := Nat.toDigits_ne_nil
  rw [isDigits, Bool.and_eq_true, List.all_eq_true]
  exact ⟨by simpa using nonempty, fun c hc => Lib.isDigit_of_mem_decimal hc⟩

/-- The number that a run of ASCII digits writes. -/
def ofDigits (digits : Text) : Nat := digits.foldl (fun n c => 10 * n + (c.toNat - '0'.toNat)) 0

/-- `text.parse::<u16>()`. A leading plus sign is allowed. -/
def parseU16 (text : Text) : Option (BitVec 16) :=
  let digits := (stripPrefix ['+'] text).getD text
  if isDigits digits ∧ ofDigits digits < 2 ^ 16 then some (BitVec.ofNat 16 (ofDigits digits))
  else none

/-- `text.to_ascii_lowercase()`. -/
def toAsciiLowercase (text : Text) : Text := text.map Char.toLower

/-! ## Decoding -/

/-- The bytes that may follow a lead byte, as a range for the next one and a count after it. -/
def utf8Tail (lead : Nat) : Option (Nat × Nat × Nat) :=
  if 0xC2 ≤ lead ∧ lead ≤ 0xDF then some (0x80, 0xBF, 0)
  else if lead = 0xE0 then some (0xA0, 0xBF, 1)
  else if lead = 0xED then some (0x80, 0x9F, 1)
  else if 0xE1 ≤ lead ∧ lead ≤ 0xEF then some (0x80, 0xBF, 1)
  else if lead = 0xF0 then some (0x90, 0xBF, 2)
  else if lead = 0xF4 then some (0x80, 0x8F, 2)
  else if 0xF1 ≤ lead ∧ lead ≤ 0xF3 then some (0x80, 0xBF, 2)
  else none

def replacement : Char := Char.ofNat 0xFFFD

/-- `String::from_utf8_lossy`, with the state of the sequence that is open: the value so far,
the range of the next byte, and how many bytes come after that one.

A byte that does not fit closes the open sequence as one replacement character and is then
read again as a lead byte. -/
def decodeLossy : Option (Nat × Nat × Nat × Nat) → List Byte → Text
  | none, [] => []
  | some _, [] => [replacement]
  | none, b :: rest =>
    if b.toNat < 0x80 then Char.ofNat b.toNat :: decodeLossy none rest
    else match utf8Tail b.toNat with
      | none => replacement :: decodeLossy none rest
      | some (low, high, more) =>
        decodeLossy (some (b.toNat % 2 ^ (5 - more), low, high, more)) rest
  | some (value, low, high, more), b :: rest =>
    if low ≤ b.toNat ∧ b.toNat ≤ high then
      let value := value * 64 + b.toNat % 64
      match more with
      | 0 => Char.ofNat value :: decodeLossy none rest
      | more + 1 => decodeLossy (some (value, 0x80, 0xBF, more)) rest
    else if b.toNat < 0x80 then replacement :: Char.ofNat b.toNat :: decodeLossy none rest
    else match utf8Tail b.toNat with
      | none => replacement :: replacement :: decodeLossy none rest
      | some (low, high, more) =>
        replacement :: decodeLossy (some (b.toNat % 2 ^ (5 - more), low, high, more)) rest

/-- `String::from_utf8_lossy`. -/
def fromUtf8Lossy (bytes : List Byte) : Text := decodeLossy none bytes

/-- `std::str::from_utf8`, with the state of the sequence that is open. -/
def decode : Option (Nat × Nat × Nat × Nat) → List Byte → Option Text
  | none, [] => some []
  | some _, [] => none
  | none, b :: rest =>
    if b.toNat < 0x80 then (decode none rest).map (Char.ofNat b.toNat :: ·)
    else match utf8Tail b.toNat with
      | none => none
      | some (low, high, more) => decode (some (b.toNat % 2 ^ (5 - more), low, high, more)) rest
  | some (value, low, high, more), b :: rest =>
    if low ≤ b.toNat ∧ b.toNat ≤ high then
      let value := value * 64 + b.toNat % 64
      match more with
      | 0 => (decode none rest).map (Char.ofNat value :: ·)
      | more + 1 => decode (some (value, 0x80, 0xBF, more)) rest
    else none

/-- `std::str::from_utf8(bytes).ok()`. -/
def fromUtf8 (bytes : List Byte) : Option Text := decode none bytes

/-- `text.as_bytes()`. -/
def toUtf8 (text : Text) : List Byte :=
  text.flatMap fun c => (String.utf8EncodeChar c).map UInt8.toBitVec

example : fromUtf8Lossy [0x61, 0xC3, 0xA9, 0xE2, 0x82, 0x41] = ['a', 'é', replacement, 'A'] := by
  decide
example : fromUtf8 (toUtf8 ['a', 'é', '€']) = some ['a', 'é', '€'] := by decide

end Text

end Beez
