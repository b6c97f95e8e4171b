import Beez.Core.Template
import Mathlib.Data.List.TakeWhile

/-! # The placeholders that a text writes

`parse` pairs the first opening braces with the closing braces after them and goes on behind
these.
-/

namespace Beez

/-! ## Search for a doubled character -/

namespace Text

variable {c d : Char} {text rest before found : Text}

theorem splitAt_append_some {pattern : Text} (h : splitAt pattern text = some (before, found))
    (rest : Text) : splitAt pattern (text ++ rest) = some (before, found ++ rest) := by
  induction text generalizing before with
  | nil =>
    simp only [splitAt] at h
    split at h
    · rename_i hpattern
      obtain ⟨rfl, rfl⟩ : [] = before ∧ [] = found := by simpa using h
      subst hpattern
      cases rest with
      | nil => rfl
      | cons c rest => simp [splitAt]
    · cases h
  | cons c text ih =>
    simp only [splitAt, List.cons_append] at h ⊢
    by_cases hpre : pattern.isPrefixOf (c :: text) = true
    · rw [if_pos hpre] at h
      obtain ⟨rfl, rfl⟩ : [] = before ∧ c :: text = found := by simpa using h
      have : pattern.isPrefixOf (c :: (text ++ rest)) = true := by
        rw [List.isPrefixOf_iff_prefix] at hpre ⊢
        exact hpre.trans (List.prefix_append (c :: text) rest)
      rw [if_pos this]
      rfl
    · rw [if_neg hpre] at h
      obtain ⟨⟨before', found'⟩, h', rfl, rfl⟩ : ∃ p, splitAt pattern text = some p ∧
          c :: p.1 = before ∧ p.2 = found := by
        simpa [Option.map_eq_some_iff] using h
      have hlength : pattern.length ≤ text.length := by
        have := (Text.splitAt_prefix h').length_le
        rw [← splitAt_append h', List.length_append]
        omega
      have : ¬ pattern.isPrefixOf (c :: (text ++ rest)) = true := by
        rw [List.isPrefixOf_iff_prefix] at hpre ⊢
        intro hlong
        exact hpre (List.prefix_of_prefix_length_le hlong (List.prefix_append (c :: text) rest)
          (by rw [List.length_cons]; omega))
      rw [if_neg this, ih h']
      rfl

/-- Where a text has no doubled `c`, not even with one `c` put behind it, the first one is the
one that follows. -/
theorem splitAt_at_end (h : splitAt [c, c] (text ++ [c]) = none) (rest : Text) :
    splitAt [c, c] (text ++ c :: c :: rest) = some (text, c :: c :: rest) := by
  induction text with
  | nil => simp [splitAt]
  | cons a text ih =>
    cases text with
    | nil =>
      simp only [List.cons_append, List.nil_append, splitAt] at h ⊢
      split at h
      · cases h
      · rename_i hne
        rw [if_neg (by simpa using hne)]
        simp
    | cons b text =>
      simp only [List.cons_append, splitAt] at h ih ⊢
      split at h
      · cases h
      · rename_i hne
        rw [if_neg (by simpa using hne), ih (by simpa using h)]
        rfl

theorem splitAt_cons_ne (h : d ≠ c) (text : Text) (hnone : splitAt [c, c] text = none) :
    splitAt [c, c] (d :: text) = none := by
  rw [splitAt, if_neg (by simp [Ne.symm h]), hnone]
  rfl

theorem splitAt_none_append (hdc : d ≠ c) (h : splitAt [c, c] text = none)
    (hrest : splitAt [c, c] rest = none) : splitAt [c, c] (text ++ d :: rest) = none := by
  induction text with
  | nil => exact splitAt_cons_ne hdc rest hrest
  | cons a text ih =>
    simp only [splitAt] at h
    split at h
    · cases h
    · rename_i hne
      rw [List.cons_append, splitAt, ih (by simpa using h), if_neg]
      · rfl
      · cases text with
        | nil => simp [Ne.symm hdc]
        | cons b text => simpa using hne

theorem splitAt_none_of_notMem (h : c ∉ text) : splitAt [c, c] (text ++ [c]) = none := by
  induction text with
  | nil => simp [splitAt]
  | cons a text ih =>
    obtain ⟨ha, htext⟩ : c ≠ a ∧ c ∉ text := by simpa using h
    rw [List.cons_append]
    exact splitAt_cons_ne (Ne.symm ha) _ (ih htext)

/-- A character put behind a text can double the last one only. -/
theorem splitAt_snoc (h : splitAt [c, c] text = none)
    (hsnoc : splitAt [c, c] (text ++ [d]) = some (before, found)) : found = [c, c] := by
  induction text generalizing before with
  | nil => simp [splitAt] at hsnoc
  | cons a text ih =>
    simp only [splitAt, List.cons_append] at h hsnoc
    split at h
    · cases h
    · rename_i hne
      split at hsnoc
      · rename_i hpre
        cases text with
        | nil =>
          obtain ⟨rfl, rfl⟩ : c = a ∧ c = d := by simpa using hpre
          exact (by simpa using hsnoc : [] = before ∧ [c, c] = found).2.symm
        | cons b text => exact absurd hpre (by simpa using hne)
      · obtain ⟨⟨before', found'⟩, h', rfl, rfl⟩ : ∃ p, splitAt [c, c] (text ++ [d]) = some p ∧
            a :: p.1 = before ∧ p.2 = found := by
          simpa [Option.map_eq_some_iff] using hsnoc
        exact ih (by simpa using h) h'

/-- What `trim` cuts off a word with white space around it. -/
theorem trim_word {lead word trail : Text} (hlead : ∀ c ∈ lead, isWhitespace c = true)
    (hword : ∀ c ∈ word, isWhitespace c = false) (htrail : ∀ c ∈ trail, isWhitespace c = true) :
    trim (lead ++ word ++ trail) = word := by
  have hstay : ∀ l rest : Text, l ≠ [] → (∀ c ∈ l, isWhitespace c = false) →
      (l ++ rest).dropWhile isWhitespace = l ++ rest := by
    intro l rest hne hl
    cases l with
    | nil => exact absurd rfl hne
    | cons c l => simp [hl c (by simp)]
  unfold trim
  rw [List.append_assoc, List.dropWhile_append_of_pos hlead]
  by_cases hempty : word = []
  · subst hempty
    rw [List.nil_append, List.dropWhile_eq_nil_iff.mpr htrail]
    rfl
  · rw [hstay word trail hempty hword, List.reverse_append,
      List.dropWhile_append_of_pos (by simpa using htrail)]
    have := hstay word.reverse [] (by simpa using hempty) (by simpa using hword)
    rw [List.append_nil] at this
    rw [this, List.reverse_reverse]

end Text

namespace Core.Template

open Text

/-! ## The closed pairs of a text -/

def scanFrom : Nat → Text → List Text × Text
  | 0, text => ([], text)
  | fuel + 1, text =>
    match nextPlaceholder text with
    | none => ([], text)
    | some (_, placeholder, after) =>
      let (placeholders, rest) := scanFrom fuel after
      (placeholder :: placeholders, rest)

/-- The closed pairs of braces of a text, from left to right, and what follows the last. -/
def scan (text : Text) : List Text × Text := scanFrom text.length text

/-- Braces of the text do not swallow the opening braces that are put behind it. -/
def Shut (text : Text) : Prop := Text.splitAt opening ((scan text).2 ++ ['\x7b']) = none

instance (text : Text) : Decidable (Shut text) :=
  inferInstanceAs (Decidable (Text.splitAt opening ((scan text).2 ++ ['\x7b']) = none))

/-- A placeholder that starts with `tasks.` and names no output. -/
def isFaulty (placeholder : Text) : Bool :=
  match parseReference placeholder with
  | some (.error _) => true
  | _ => false

def Sound (text : Text) : Prop := ∀ placeholder ∈ (scan text).1, isFaulty placeholder = false

instance (text : Text) : Decidable (Sound text) :=
  inferInstanceAs (Decidable (∀ placeholder ∈ (scan text).1, isFaulty placeholder = false))

variable {text before after placeholder inner : Text} {reference : OutputReference}

theorem scanFrom_fuel {fuel : Nat} (h : text.length ≤ fuel) : scanFrom fuel text = scan text := by
  unfold scan
  induction hn : text.length using Nat.strong_induction_on generalizing text fuel with
  | _ n ih =>
    subst hn
    cases hnext : nextPlaceholder text with
    | none => cases fuel <;> cases text <;> simp [scanFrom, hnext]
    | some found =>
      obtain ⟨before, placeholder, after⟩ := found
      have hlength := nextPlaceholder_length hnext
      obtain ⟨fuel, rfl⟩ : ∃ n, fuel = n + 1 := ⟨fuel - 1, by omega⟩
      obtain ⟨size, hsize⟩ : ∃ n, text.length = n + 1 := ⟨text.length - 1, by omega⟩
      have hafter : ∀ fuel, after.length ≤ fuel → scanFrom fuel after = scanFrom after.length after :=
        fun fuel hfuel => ih after.length (by omega) hfuel rfl
      rw [hsize, scanFrom, scanFrom, hnext]
      simp only [hafter fuel (by omega), hafter size (by omega)]

theorem scan_none (h : nextPlaceholder text = none) : scan text = ([], text) := by
  unfold scan
  cases text.length <;> simp [scanFrom, h]

theorem scan_some (h : nextPlaceholder text = some (before, placeholder, after)) :
    scan text = (placeholder :: (scan after).1, (scan after).2) := by
  have hlength := nextPlaceholder_length h
  have hafter : scanFrom text.length after = scan after := scanFrom_fuel (by omega)
  rw [← scanFrom_fuel (Nat.le_succ text.length), scanFrom, h]
  simp only [hafter]

theorem sound_some (h : nextPlaceholder text = some (before, placeholder, after)) :
    Sound text ↔ isFaulty placeholder = false ∧ Sound after := by
  unfold Sound
  rw [scan_some h]
  exact List.forall_mem_cons

theorem shut_some (h : nextPlaceholder text = some (before, placeholder, after)) :
    Shut text ↔ Shut after := by
  unfold Shut
  rw [scan_some h]

/-! ## One placeholder behind a text -/

theorem nextPlaceholder_append_some (h : nextPlaceholder text = some (before, placeholder, after))
    (rest : Text) :
    nextPlaceholder (text ++ rest) = some (before, placeholder, after ++ rest) := by
  simp only [nextPlaceholder, Option.bind_eq_bind, Option.bind_eq_some_iff, Prod.exists,
    Option.pure_def, Option.some.injEq, Prod.mk.injEq] at h ⊢
  obtain ⟨before', fromOpen, hopen, inner, fromClose, hclose, rfl, rfl, rfl⟩ := h
  have lopen := (Text.splitAt_prefix hopen).length_le
  have lclose := (Text.splitAt_prefix hclose).length_le
  refine ⟨_, _, splitAt_append_some hopen rest, inner, fromClose ++ rest, ?_, rfl, rfl, ?_⟩
  · rw [List.drop_append_of_le_length lopen]
    exact splitAt_append_some hclose rest
  · rw [List.drop_append_of_le_length lclose]

theorem opening_eq : opening = ['\x7b', '\x7b'] := rfl

theorem closing_eq : closing = ['\x7d', '\x7d'] := rfl

theorem nextPlaceholder_ne_nil (h : nextPlaceholder text = some (before, placeholder, after)) :
    placeholder ≠ [] := by
  simp only [nextPlaceholder, Option.bind_eq_bind, Option.bind_eq_some_iff, Prod.exists,
    Option.pure_def, Option.some.injEq, Prod.mk.injEq] at h
  obtain ⟨before', fromOpen, -, inner, fromClose, -, rfl, rfl, rfl⟩ := h
  simp [opening_eq]

theorem splitAt_closing (h : Text.splitAt closing text = none) (hinner : '\x7d' ∉ inner)
    (after : Text) :
    Text.splitAt closing (text ++ '\x7b' :: inner ++ closing ++ after) =
      some (text ++ '\x7b' :: inner, closing ++ after) := by
  rw [closing_eq] at h ⊢
  have hnone := splitAt_none_append (d := '\x7b') (by decide) h (splitAt_none_of_notMem hinner)
  rw [← List.cons_append, ← List.append_assoc] at hnone
  simpa using splitAt_at_end hnone after

theorem nextPlaceholder_eq {rest : Text}
    (hopen : Text.splitAt opening text = some (before, opening ++ rest))
    (hclose : Text.splitAt closing rest = some (inner, closing ++ after)) :
    nextPlaceholder text = some (before, opening ++ inner ++ closing, after) := by
  simp [nextPlaceholder, hopen, hclose]

/-- The placeholder is the next one when the text before it leaves nothing open. -/
theorem nextPlaceholder_shut (h : Text.splitAt opening (before ++ ['\x7b']) = none)
    (hinner : '\x7d' ∉ inner) (after : Text) :
    nextPlaceholder (before ++ (opening ++ inner ++ closing ++ after)) =
      some (before, opening ++ inner ++ closing, after) := by
  rw [opening_eq] at h
  have hopen := splitAt_at_end h (inner ++ closing ++ after)
  have hclose := splitAt_at_end (splitAt_none_of_notMem hinner) after
  refine @nextPlaceholder_eq _ _ _ _ (inner ++ closing ++ after) ?_ ?_
  · simpa [opening_eq] using hopen
  · simpa [closing_eq] using hclose

/-- What the text before the placeholder leaves open holds no closing braces. -/
theorem splitAt_closing_of_none {start tail : Text} (hnone : nextPlaceholder before = none)
    (h : Text.splitAt opening (before ++ ['\x7b']) = some (start, opening ++ tail)) :
    Text.splitAt closing tail = none := by
  cases hopen : Text.splitAt opening before with
  | none =>
    rw [opening_eq] at h hopen
    have : tail = [] := by simpa using splitAt_snoc hopen h
    subst this
    rfl
  | some found =>
    obtain ⟨start', found⟩ := found
    obtain ⟨tail', rfl⟩ := splitAt_prefix hopen
    have hsame := splitAt_append_some hopen ['\x7b']
    obtain rfl : tail' ++ ['\x7b'] = tail := by
      have : opening ++ tail' ++ ['\x7b'] = opening ++ tail := by
        rw [h, Option.some.injEq, Prod.mk.injEq] at hsame
        exact hsame.2.symm
      simpa using this
    have hclear : Text.splitAt closing tail' = none := by
      cases hclose : Text.splitAt closing tail' with
      | none => rfl
      | some found =>
        obtain ⟨inner, found⟩ := found
        obtain ⟨after, rfl⟩ := splitAt_prefix hclose
        rw [nextPlaceholder_eq hopen hclose] at hnone
        cases hnone
    rw [closing_eq] at hclear ⊢
    exact splitAt_none_append (by decide) hclear rfl

/-- Otherwise the pair that holds it starts earlier. -/
theorem nextPlaceholder_open (hnone : nextPlaceholder before = none)
    (h : Text.splitAt opening (before ++ ['\x7b']) ≠ none) (hinner : '\x7d' ∉ inner)
    (after : Text) :
    ∃ start placeholder, start.length < before.length ∧
      nextPlaceholder (before ++ (opening ++ inner ++ closing ++ after)) =
        some (start, placeholder, after) := by
  obtain ⟨⟨start, found⟩, hfound⟩ := Option.ne_none_iff_exists'.mp h
  have hlength := congrArg List.length (splitAt_append hfound)
  obtain ⟨tail, rfl⟩ := splitAt_prefix hfound
  have hlong := splitAt_append_some hfound ('\x7b' :: inner ++ closing ++ after)
  have hclose := splitAt_closing (splitAt_closing_of_none hnone hfound) hinner after
  refine ⟨start, opening ++ (tail ++ '\x7b' :: inner) ++ closing, ?_, ?_⟩
  · simp [opening_eq] at hlength
    omega
  · apply nextPlaceholder_eq _ hclose
    simpa [opening_eq] using hlong

/-! ## What is written as a reference -/

/-- The characters of a reference without its braces and white space. -/
def path (reference : OutputReference) : Text :=
  tasksPrefix ++ reference.task.text ++ '.' :: reference.output.name

/-- A placeholder as a manifest may write it, with `lead` and `trail` for its white space. -/
def written (lead : Text) (reference : OutputReference) (trail : Text) : Text :=
  opening ++ (lead ++ path reference ++ trail) ++ closing

theorem isIdCharacter_range {c : Char} (h : isIdCharacter c = true) :
    48 ≤ c.toNat ∧ c.toNat ≤ 122 := by
  simp only [isIdCharacter, Bool.or_eq_true, Bool.and_eq_true, decide_eq_true_eq, beq_iff_eq,
    Char.le_def, UInt32.le_iff_toNat_le] at h
  change (((48 ≤ c.toNat ∧ c.toNat ≤ 57) ∨ (65 ≤ c.toNat ∧ c.toNat ≤ 90)) ∨
    (97 ≤ c.toNat ∧ c.toNat ≤ 122)) ∨ c = '_' at h
  rcases h with h | rfl
  · omega
  · decide

theorem isWhitespace_of_range {c : Char} (low : 33 ≤ c.toNat) (high : c.toNat ≤ 122) :
    isWhitespace c = false := by
  simp [isWhitespace]
  omega

theorem fromStr_text (id : TaskId) : TaskId.fromStr id.text = .ok id := by
  obtain ⟨text, hne, hall⟩ := id
  unfold TaskId.fromStr
  rw [dif_neg hne]
  split
  · rename_i c hfound
    have hvalid := List.all_eq_true.mp hall c (List.mem_of_find?_eq_some hfound)
    have hbad := List.find?_some hfound
    simp [hvalid] at hbad
  · rfl

theorem path_range {c : Char} (h : c ∈ path reference) : 33 ≤ c.toNat ∧ c.toNat ≤ 122 := by
  have hall : (tasksPrefix ++ '.' :: reference.output.name).all
      (fun c => 33 ≤ c.toNat && c.toNat ≤ 122) = true := by
    cases reference.output <;> decide
  have hname : ∀ c ∈ tasksPrefix ++ '.' :: reference.output.name,
      33 ≤ c.toNat ∧ c.toNat ≤ 122 := by
    simpa only [List.all_eq_true, Bool.and_eq_true, decide_eq_true_eq] using hall
  simp only [path, List.mem_append] at h
  rcases h with (h | h) | h
  · exact hname c (List.mem_append_left _ h)
  · have := isIdCharacter_range (List.all_eq_true.mp reference.task.valid.2 c h)
    omega
  · exact hname c (List.mem_append_right _ h)

variable {lead trail : Text}

theorem stripPrefix_append (pattern text : Text) :
    Text.stripPrefix pattern (pattern ++ text) = some text := by
  simp [Text.stripPrefix]

theorem stripSuffix_append (pattern text : Text) :
    Text.stripSuffix pattern (text ++ pattern) = some text := by
  simp [Text.stripSuffix]

theorem parseReference_written (reference : OutputReference)
    (hlead : ∀ c ∈ lead, isWhitespace c = true)
    (htrail : ∀ c ∈ trail, isWhitespace c = true) :
    parseReference (written lead reference trail) = some (.ok reference) := by
  have hword : ∀ c ∈ path reference, isWhitespace c = false := by
    intro c hc
    exact isWhitespace_of_range (path_range hc).1 (path_range hc).2
  unfold parseReference written
  simp only [Option.bind_eq_bind]
  rw [List.append_assoc opening, stripPrefix_append, Option.bind_some, stripSuffix_append,
    Option.bind_some, trim_word hlead hword htrail, path, List.append_assoc tasksPrefix,
    stripPrefix_append, Option.bind_some, rsplitOnce_append _ reference.output.dot_notMem_name]
  simp only [TaskOutput.find?_name, fromStr_text]
  rfl

/-- No character of the placeholder but its braces is a brace. -/
theorem brace_notMem (reference : OutputReference)
    (hlead : ∀ c ∈ lead, isWhitespace c = true)
    (htrail : ∀ c ∈ trail, isWhitespace c = true) :
    '\x7d' ∉ lead ++ path reference ++ trail := by
  intro h
  simp only [List.mem_append] at h
  rcases h with (h | h) | h
  · exact absurd (hlead _ h) (by decide)
  · exact absurd (path_range h).2 (by decide)
  · exact absurd (htrail _ h) (by decide)

/-! ## When the placeholder is read -/

theorem Reads.sound {pieces : List Piece} (h : Reads text pieces) : Sound text := by
  induction h with
  | rest hnone =>
    unfold Sound
    rw [scan_none hnone]
    simp
  | reference next parsed _ ih => exact (sound_some next).mpr ⟨by simp [isFaulty, parsed], ih⟩
  | braces next parsed _ ih => exact (sound_some next).mpr ⟨by simp [isFaulty, parsed], ih⟩

theorem parseFrom_of_sound (fuel : Nat) (segments : List Segment) (h : Sound text) :
    ∃ segments', parseFrom fuel segments text = .ok segments' := by
  induction fuel generalizing segments text with
  | zero => exact ⟨_, rfl⟩
  | succ fuel ih =>
    rw [parseFrom]
    cases hnext : nextPlaceholder text with
    | none => exact ⟨_, rfl⟩
    | some found =>
      obtain ⟨before, placeholder, after⟩ := found
      obtain ⟨hfaulty, hafter⟩ := (sound_some hnext).mp h
      cases hparse : parseReference placeholder with
      | none =>
        simp only [hparse]
        exact ih _ hafter
      | some result =>
        cases result with
        | ok reference =>
          simp only [hparse]
          exact ih _ hafter
        | error error => simp [isFaulty, hparse] at hfaulty

theorem parse_of_sound (h : Sound text) : ∃ template, parse text = .ok template := by
  obtain ⟨segments, hsegments⟩ := parseFrom_of_sound text.length [] h
  exact ⟨⟨segments⟩, by rw [parse, hsegments]; rfl⟩

/-- The pieces of a text whose first closed pair is known. -/
theorem Reads.cases_some {pieces : List Piece}
    (hnext : nextPlaceholder text = some (before, placeholder, after)) (h : Reads text pieces) :
    ∃ piece rest, pieces = .literal before :: piece :: rest ∧ piece.text = placeholder ∧
      (∀ reference, parseReference placeholder = some (.ok reference) →
        piece = .placeholder placeholder reference) ∧ Reads after rest := by
  cases h with
  | rest hnone =>
    rw [hnext] at hnone
    cases hnone
  | reference next parsed more =>
    rw [hnext] at next
    cases next
    refine ⟨_, _, rfl, rfl, fun reference hparse => ?_, more⟩
    rw [hparse] at parsed
    cases parsed
    rfl
  | braces next parsed more =>
    rw [hnext] at next
    cases next
    refine ⟨_, _, rfl, rfl, fun reference hparse => ?_, more⟩
    rw [hparse] at parsed
    cases parsed

/-- Behind a text that leaves nothing open, the placeholder is a piece. -/
theorem Reads.found {pieces : List Piece} (shut : Shut before) (hinner : '\x7d' ∉ inner)
    (hparse : parseReference (opening ++ inner ++ closing) = some (.ok reference))
    (h : Reads (before ++ (opening ++ inner ++ closing ++ after)) pieces) :
    ∃ l r, pieces = l ++ .placeholder (opening ++ inner ++ closing) reference :: r ∧
      l.flatMap Piece.text = before := by
  induction hn : before.length using Nat.strong_induction_on generalizing before pieces with
  | _ n ih =>
    subst hn
    cases hnext : nextPlaceholder before with
    | none =>
      unfold Shut at shut
      rw [scan_none hnext] at shut
      obtain ⟨piece, rest, rfl, -, hpiece, -⟩ := h.cases_some (nextPlaceholder_shut shut hinner after)
      exact ⟨[.literal before], rest, by rw [hpiece reference hparse]; rfl, by simp [Piece.text]⟩
    | some found =>
      obtain ⟨start, placeholder, rest⟩ := found
      have hlength := nextPlaceholder_length hnext
      have htext := nextPlaceholder_append hnext
      obtain ⟨piece, pieces, rfl, hpiece, -, hmore⟩ := h.cases_some
        (nextPlaceholder_append_some hnext (opening ++ inner ++ closing ++ after))
      obtain ⟨l, r, rfl, hl⟩ := ih rest.length (by omega) ((shut_some hnext).mp shut) hmore rfl
      refine ⟨.literal start :: piece :: l, r, rfl, ?_⟩
      rw [List.flatMap_cons, List.flatMap_cons, hpiece, hl]
      exact htext

theorem split_cases {l r rest : List Piece} {piece : Piece}
    (h : l ++ .placeholder placeholder reference :: r = .literal before :: piece :: rest) :
    l = [.literal before] ∨ ∃ l', l = .literal before :: piece :: l' ∧
      l' ++ .placeholder placeholder reference :: r = rest := by
  match l with
  | [] => cases h
  | [x] =>
    left
    rw [List.singleton_append, List.cons.injEq] at h
    rw [h.1]
  | x :: y :: l' =>
    right
    rw [List.cons_append, List.cons_append, List.cons.injEq, List.cons.injEq] at h
    exact ⟨l', by rw [h.1, h.2.1], h.2.2⟩

/-- A placeholder is a piece only behind a text that leaves nothing open. -/
theorem Reads.shut {l r : List Piece} (hinner : '\x7d' ∉ inner)
    (h : Reads (before ++ (opening ++ inner ++ closing ++ after))
      (l ++ .placeholder (opening ++ inner ++ closing) reference :: r))
    (hl : l.flatMap Piece.text = before) : Shut before := by
  induction hn : before.length using Nat.strong_induction_on generalizing before l with
  | _ n ih =>
    subst hn
    cases hnext : nextPlaceholder before with
    | none =>
      unfold Shut
      rw [scan_none hnext]
      by_contra hopen
      obtain ⟨start, placeholder, hshort, hlong⟩ := nextPlaceholder_open hnext hopen hinner after
      have htext := congrArg List.length (nextPlaceholder_append hlong)
      have hlength := congrArg List.length hl
      obtain ⟨piece, rest, hpieces, hpiece, -, -⟩ := h.cases_some hlong
      -- the pair starts before the placeholder and ends behind it
      rcases split_cases hpieces with rfl | ⟨l', rfl, -⟩
      · simp [Piece.text] at hlength
        omega
      · rw [List.flatMap_cons, List.flatMap_cons, hpiece] at hlength
        simp only [List.length_append, Piece.text] at hlength htext
        simp [opening_eq] at htext
        omega
    | some found =>
      obtain ⟨start, placeholder, rest⟩ := found
      have hlength := nextPlaceholder_length hnext
      have htext := nextPlaceholder_append hnext
      obtain ⟨piece, pieces, hpieces, hpiece, -, hmore⟩ := h.cases_some
        (nextPlaceholder_append_some hnext (opening ++ inner ++ closing ++ after))
      rcases split_cases hpieces with rfl | ⟨l', rfl, rfl⟩
      · have hstart : start = before := by simpa [Piece.text] using hl
        have hnil : placeholder ++ rest = [] := by simpa [hstart] using htext
        exact absurd (List.append_eq_nil_iff.mp hnil).1 (nextPlaceholder_ne_nil hnext)
      · refine (shut_some hnext).mpr (ih rest.length (by omega) hmore ?_ rfl)
        rw [← htext, List.flatMap_cons, List.flatMap_cons, hpiece] at hl
        simpa [Piece.text] using hl

/-- The template has the placeholder that follows `before` as a reference. -/
def ReadsAt (text before placeholder : Text) (reference : OutputReference) (template : Template) :
    Prop :=
  ∃ l r, Reads text (l ++ .placeholder placeholder reference :: r) ∧
    l.flatMap Piece.text = before ∧
    template.references = l.filterMap Piece.reference ++ reference :: r.filterMap Piece.reference ∧
    ∀ output, template.fill output =
      l.flatMap (Piece.filled output) ++ (output reference ++ r.flatMap (Piece.filled output))

/-- When a placeholder that a text writes is read as a reference. -/
theorem written_read_iff (before after lead trail : Text) (reference : OutputReference)
    (hlead : ∀ c ∈ lead, isWhitespace c = true) (htrail : ∀ c ∈ trail, isWhitespace c = true) :
    (∀ template, parse (before ++ (written lead reference trail ++ after)) = .ok template →
      ReadsAt (before ++ (written lead reference trail ++ after)) before
        (written lead reference trail) reference template) ↔
    (Shut before ∨ ¬ Sound (before ++ (written lead reference trail ++ after))) := by
  have hinner := brace_notMem reference hlead htrail
  have hparse := parseReference_written reference hlead htrail
  constructor
  · intro h
    by_contra hnot
    push Not at hnot
    obtain ⟨template, htemplate⟩ := parse_of_sound hnot.2
    obtain ⟨l, r, hreads, hl, -⟩ := h template htemplate
    exact hnot.1 (hreads.shut hinner hl)
  · intro h template htemplate
    obtain ⟨pieces, hreads, hfill, hreferences⟩ := parse_reads htemplate
    obtain ⟨l, r, rfl, hl⟩ := hreads.found (h.resolve_right (not_not_intro hreads.sound)) hinner hparse
    refine ⟨l, r, hreads, hl, ?_, fun output => ?_⟩
    · rw [hreferences]
      simp [Piece.reference]
    · rw [hfill]
      simp [Piece.filled]

/-- The unclosed braces of a prompt take in the reference behind them. -/
theorem unclosed_swallows : ¬ ∀ (before after lead trail : Text) (reference : OutputReference),
    (∀ c ∈ lead, isWhitespace c = true) → (∀ c ∈ trail, isWhitespace c = true) →
    ∀ template, parse (before ++ (written lead reference trail ++ after)) = .ok template →
      reference ∈ template.references := by
  intro h
  have hparse : parse ("\x7b\x7b opens. ".toList ++ (written [' ']
      ⟨⟨['a'], by decide⟩, .stdout⟩ [' '] ++ [])) =
      .ok ⟨[.text "\x7b\x7b opens. \x7b\x7b tasks.a.stdout \x7d\x7d".toList]⟩ := by decide
  have hblank : ∀ c ∈ [' '], isWhitespace c = true := by simp [isWhitespace]
  have := h _ _ _ _ _ hblank hblank _ hparse
  exact absurd this (by decide)

/-- Braces that are closed before the reference leave it alone. -/
theorem written_read_closed :
    let text := "a \x7b\x7b name \x7d\x7d ".toList
    let reference : OutputReference := ⟨⟨['a'], by decide⟩, .stdout⟩
    ∀ template, parse (text ++ (written [' '] reference [' '] ++ ['.'])) = .ok template →
      ReadsAt (text ++ (written [' '] reference [' '] ++ ['.'])) text
        (written [' '] reference [' ']) reference template := by
  have hblank : ∀ c ∈ [' '], isWhitespace c = true := by simp [isWhitespace]
  exact (written_read_iff _ _ _ _ _ hblank hblank).mpr (.inl (by decide))

end Core.Template

end Beez
