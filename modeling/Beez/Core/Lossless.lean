import Beez.Core.Braces

/-! # What a template gives back

The pieces of a text stay apart when each reference is written in another way, so a text can be
read again.
-/

namespace Beez

namespace Text

variable {c : Char} {text before found : Text}

/-- What comes before the first doubled `c` has none, not even with one `c` put behind it. -/
theorem splitAt_before (h : splitAt [c, c] text = some (before, found)) :
    splitAt [c, c] (before ++ [c]) = none := by
  induction text generalizing before with
  | nil => simp [splitAt] at h
  | cons a text ih =>
    rw [splitAt] at h
    split at h
    · obtain ⟨rfl, -⟩ : [] = before ∧ a :: text = found := by simpa using h
      simp [splitAt]
    · rename_i hne
      obtain ⟨⟨before', found'⟩, h', rfl, rfl⟩ : ∃ p, splitAt [c, c] text = some p ∧
          a :: p.1 = before ∧ p.2 = found := by
        simpa [Option.map_eq_some_iff] using h
      rw [List.cons_append, splitAt, ih h', if_neg]
      · rfl
      · cases before' with
        | nil =>
          obtain ⟨rest, rfl⟩ := splitAt_prefix h'
          obtain rfl : c :: c :: rest = text := by simpa using splitAt_append h'
          simpa using hne
        | cons b before' =>
          have := splitAt_append h'
          subst this
          simpa using hne

end Text

namespace Core.Template

variable {text before placeholder after inner : Text} {segments : List Segment}

/-- The next placeholder stands between text that does not double a brace with its own. -/
theorem nextPlaceholder_iff : nextPlaceholder text = some (before, placeholder, after) ↔
    ∃ inner, placeholder = opening ++ inner ++ closing ∧
      text = before ++ (opening ++ inner ++ closing ++ after) ∧
      Text.splitAt opening (before ++ ['\x7b']) = none ∧
      Text.splitAt closing (inner ++ ['\x7d']) = none := by
  constructor
  · intro h
    have whole := nextPlaceholder_append h
    simp only [nextPlaceholder, Option.bind_eq_bind, Option.bind_eq_some_iff, Prod.exists,
      Option.pure_def, Option.some.injEq, Prod.mk.injEq] at h
    obtain ⟨before', fromOpen, hopen, inner, fromClose, hclose, rfl, rfl, rfl⟩ := h
    refine ⟨inner, rfl, ?_, Text.splitAt_before hopen, Text.splitAt_before hclose⟩
    simpa using whole.symm
  · rintro ⟨inner, rfl, rfl, hopen, hclose⟩
    rw [opening_eq] at hopen
    rw [closing_eq] at hclose
    have open_at := Text.splitAt_at_end hopen (inner ++ closing ++ after)
    have close_at := Text.splitAt_at_end hclose after
    refine @nextPlaceholder_eq _ _ _ _ (inner ++ closing ++ after) ?_ ?_
    · simpa [opening_eq] using open_at
    · simpa [closing_eq] using close_at

/-! ## From pieces to segments -/

def Piece.push (segments : List Segment) : Piece → List Segment
  | .literal text => pushText segments text
  | .placeholder _ reference => segments ++ [.output reference]

theorem parseFrom_of_reads {pieces : List Piece} (h : Reads text pieces) {fuel : Nat}
    (enough : text.length ≤ fuel) (segments : List Segment) :
    parseFrom fuel segments text = .ok (pieces.foldl Piece.push segments) := by
  induction h generalizing fuel segments with
  | rest none =>
    cases fuel with
    | zero => rfl
    | succ fuel => simp only [parseFrom, none]; rfl
  | reference next parsed _ ih =>
    have shorter := nextPlaceholder_length next
    obtain ⟨fuel, rfl⟩ : ∃ n, fuel = n + 1 := ⟨fuel - 1, by omega⟩
    simp only [parseFrom, next, parsed]
    exact ih (by omega) _
  | braces next parsed _ ih =>
    have shorter := nextPlaceholder_length next
    obtain ⟨fuel, rfl⟩ : ∃ n, fuel = n + 1 := ⟨fuel - 1, by omega⟩
    simp only [parseFrom, next, parsed]
    exact ih (by omega) _

theorem parse_of_reads {pieces : List Piece} (h : Reads text pieces) :
    parse text = .ok ⟨pieces.foldl Piece.push []⟩ := by
  rw [parse, parseFrom_of_reads h (Nat.le_refl _)]
  rfl

/-! ## Every reference in its display form -/

/-- The same piece, with the reference in its display form. -/
def Piece.respelled : Piece → Piece
  | .literal text => .literal text
  | .placeholder _ reference => .placeholder reference.display reference

theorem display_eq (reference : OutputReference) :
    reference.display = written [' '] reference [' '] := by
  have start : "\x7b\x7b tasks.".toList = opening ++ [' '] ++ tasksPrefix := by decide
  have dot : ".".toList = ['.'] := by decide
  have stop : " \x7d\x7d".toList = [' '] ++ closing := by decide
  unfold OutputReference.display written path
  rw [start, dot, stop]
  simp only [List.append_assoc, List.cons_append, List.nil_append]

theorem Reads.respelled {pieces : List Piece} (h : Reads text pieces) :
    Reads (pieces.flatMap (Piece.filled OutputReference.display)) (pieces.map Piece.respelled) := by
  induction h with
  | @rest text none => simpa [Piece.filled, Piece.respelled] using Reads.rest none
  | @reference text before placeholder after reference pieces next parsed _ ih =>
    obtain ⟨inner, -, -, hopen, -⟩ := nextPlaceholder_iff.mp next
    have blank : ∀ c ∈ [' '], Text.isWhitespace c = true := by simp [Text.isWhitespace]
    have parsed' := parseReference_written reference blank blank
    have next' := nextPlaceholder_shut hopen (brace_notMem reference blank blank)
      (pieces.flatMap (Piece.filled OutputReference.display))
    have hdisplay := display_eq reference
    unfold written at parsed' hdisplay
    rw [← hdisplay] at parsed' next'
    exact Reads.reference next' parsed' ih
  | @braces text before placeholder after pieces next parsed _ ih =>
    obtain ⟨inner, rfl, -, hopen, hclose⟩ := nextPlaceholder_iff.mp next
    have next' : nextPlaceholder (before ++ (opening ++ inner ++ closing ++
        pieces.flatMap (Piece.filled OutputReference.display))) =
          some (before, opening ++ inner ++ closing, _) :=
      nextPlaceholder_iff.mpr ⟨inner, rfl, rfl, hopen, hclose⟩
    exact Reads.braces next' parsed ih

theorem foldl_push_respelled (pieces : List Piece) (segments : List Segment) :
    (pieces.map Piece.respelled).foldl Piece.push segments = pieces.foldl Piece.push segments := by
  rw [List.foldl_map]
  congr 1
  funext segments piece
  cases piece <;> rfl

/-! ## Every reference as it is written -/

/-- The loop of `render`, with a lookup that keeps a state. -/
def renderFrom {σ : Type} (lookup : σ → OutputReference → Option Text × σ) :
    σ → List Segment → Except OutputReference Text
  | _, [] => .ok []
  | state, .text text :: rest => do return text ++ (← renderFrom lookup state rest)
  | state, .output reference :: rest =>
    match lookup state reference with
    | (some output, state) => do return output ++ (← renderFrom lookup state rest)
    | (none, _) => .error reference

theorem renderSegments_eq (lookup : OutputReference → Option Text) (segments : List Segment) :
    renderSegments lookup segments =
      renderFrom (fun _ reference => (lookup reference, ())) () segments := by
  induction segments with
  | nil => rfl
  | cons segment rest ih =>
    cases segment with
    | text text => rw [renderSegments, renderFrom, ih]
    | output reference =>
      rw [renderSegments, renderFrom, ih]
      cases lookup reference <;> rfl

/-- The lookup that gives one text after the other, whatever the reference. -/
def inTurn (left : List Text) (_ : OutputReference) : Option Text × List Text :=
  (left.head?, left.tail)

/-- A closed pair of braces that names an output. -/
def isReference (placeholder : Text) : Bool :=
  match parseReference placeholder with
  | some (.ok _) => true
  | _ => false

/-- How the references of a text are spelled, from left to right. -/
def spellings (text : Text) : List Text := (scan text).1.filter isReference

def Piece.spelling : Piece → Option Text
  | .literal _ => none
  | .placeholder text _ => some text

theorem spellings_of_reads {pieces : List Piece} (h : Reads text pieces) :
    spellings text = pieces.filterMap Piece.spelling := by
  induction h with
  | rest none => simp [spellings, scan_none none, Piece.spelling]
  | reference next parsed _ ih =>
    rw [spellings, scan_some next, List.filter_cons_of_pos (by simp [isReference, parsed])]
    exact congrArg (List.cons _) ih
  | braces next parsed _ ih =>
    rw [spellings, scan_some next, List.filter_cons_of_neg (by simp [isReference, parsed])]
    exact ih

theorem parseReference_spellings {pieces : List Piece} (h : Reads text pieces) :
    (spellings text).map parseReference =
      (pieces.filterMap Piece.reference).map fun reference => some (.ok reference) := by
  rw [spellings_of_reads h]
  induction h with
  | rest _ => rfl
  | reference _ parsed _ ih => exact congrArg₂ List.cons parsed ih
  | braces _ _ _ ih => exact ih

/-- The segments side by side, each reference replaced by the next text. -/
def fillInTurn : List Text → List Segment → Text
  | _, [] => []
  | left, .text text :: rest => text ++ fillInTurn left rest
  | left, .output _ :: rest => left.headD [] ++ fillInTurn left.tail rest

theorem renderFrom_inTurn {left : List Text}
    (each : left.length = (references ⟨segments⟩).length) :
    renderFrom inTurn left segments = .ok (fillInTurn left segments) := by
  induction segments generalizing left with
  | nil => rfl
  | cons segment rest ih =>
    cases segment with
    | text text =>
      have each : left.length = (references ⟨rest⟩).length := each
      rw [renderFrom, ih each]
      rfl
    | output reference =>
      cases left with
      | nil => simp [references] at each
      | cons first left =>
        have each : left.length = (references ⟨rest⟩).length := Nat.succ.inj each
        simp only [renderFrom, inTurn, List.head?_cons, List.tail_cons, ih each]
        rfl

theorem fillInTurn_append {left : List Text} (each : left.length = (references ⟨segments⟩).length)
    (more : List Text) (after : List Segment) :
    fillInTurn (left ++ more) (segments ++ after) =
      fillInTurn left segments ++ fillInTurn more after := by
  induction segments generalizing left with
  | nil =>
    obtain rfl : left = [] := List.length_eq_zero_iff.mp each
    rfl
  | cons segment rest ih =>
    cases segment with
    | text text =>
      have each : left.length = (references ⟨rest⟩).length := each
      simp only [List.cons_append, fillInTurn, ih each, List.append_assoc]
    | output reference =>
      cases left with
      | nil => simp [references] at each
      | cons first left =>
        have each : left.length = (references ⟨rest⟩).length := Nat.succ.inj each
        simp only [List.cons_append, fillInTurn, List.headD_cons, List.tail_cons, ih each,
          List.append_assoc]

theorem fillInTurn_pushText {left : List Text}
    (each : left.length = (references ⟨segments⟩).length) (text : Text) :
    fillInTurn left (pushText segments text) = fillInTurn left segments ++ text := by
  have snoc : ∀ {segments : List Segment}, left.length = (references ⟨segments⟩).length →
      ∀ last, fillInTurn left (segments ++ [.text last]) = fillInTurn left segments ++ last := by
    intro segments each last
    have := fillInTurn_append each [] [.text last]
    simpa [fillInTurn] using this
  rw [pushText]
  split
  · rename_i hempty
    simp [hempty]
  · split
    · rename_i last hlast
      obtain ⟨init, rfl⟩ := List.getLast?_eq_some_iff.mp hlast
      have each : left.length = (references ⟨init⟩).length := by simpa [references] using each
      rw [List.dropLast_concat, snoc each, snoc each, List.append_assoc]
    · exact snoc each text

theorem fillInTurn_push (pieces : List Piece) {left : List Text}
    (each : left.length = (references ⟨segments⟩).length) :
    (left ++ pieces.filterMap Piece.spelling).length =
        (references ⟨pieces.foldl Piece.push segments⟩).length ∧
      fillInTurn (left ++ pieces.filterMap Piece.spelling) (pieces.foldl Piece.push segments) =
        fillInTurn left segments ++ pieces.flatMap Piece.text := by
  induction pieces generalizing segments left with
  | nil => simpa using each
  | cons piece rest ih =>
    cases piece with
    | literal text =>
      have each' : left.length = (references ⟨pushText segments text⟩).length :=
        each.trans (by rw [references_pushText])
      obtain ⟨length, filled⟩ := ih each'
      refine ⟨length, filled.trans ?_⟩
      rw [fillInTurn_pushText each, List.append_assoc]
      rfl
    | placeholder text reference =>
      have each' : (left ++ [text]).length = (references ⟨segments ++ [.output reference]⟩).length := by
        simpa [references] using each
      obtain ⟨length, filled⟩ := ih each'
      have one := fillInTurn_append each [text] [.output reference]
      rw [List.append_assoc] at length filled
      refine ⟨length, filled.trans ?_⟩
      rw [one, List.append_assoc]
      simp [fillInTurn, Piece.text]

theorem renderFrom_spellings {pieces : List Piece} (h : Reads text pieces) :
    renderFrom inTurn (spellings text) (pieces.foldl Piece.push []) = .ok text := by
  obtain ⟨each, filled⟩ := @fillInTurn_push [] pieces [] rfl
  rw [List.nil_append] at each filled
  rw [spellings_of_reads h, renderFrom_inTurn each, filled, h.text]
  rfl

/-! ## What parses -/

/-- The pair starts with `tasks.` but for white space, and names no output of a task. -/
def NamesNoOutput (placeholder : Text) : Prop :=
  ∃ inner path, placeholder = opening ++ inner ++ closing ∧
    Text.trim inner = tasksPrefix ++ path ∧
    ∀ (id : TaskId) (output : TaskOutput), path ≠ id.text ++ '.' :: output.name

theorem text_of_fromStr {value : Text} {id : TaskId} (h : TaskId.fromStr value = .ok id) :
    id.text = value := by
  unfold TaskId.fromStr at h
  split at h
  · cases h
  · split at h
    · cases h
    · rw [← Except.ok.inj h]

theorem parseReference_of_path {inner path : Text} (h : Text.trim inner = tasksPrefix ++ path) :
    parseReference (opening ++ inner ++ closing) = some (match Text.rsplitOnce '.' path with
      | none => .error ⟨opening ++ inner ++ closing⟩
      | some (task, output) =>
        match TaskOutput.all.find? (·.name = output), TaskId.fromStr task with
        | some output, .ok task => .ok ⟨task, output⟩
        | _, _ => .error ⟨opening ++ inner ++ closing⟩) := by
  unfold parseReference
  simp only [Option.bind_eq_bind]
  rw [List.append_assoc opening, stripPrefix_append, Option.bind_some, stripSuffix_append,
    Option.bind_some, h, stripPrefix_append, Option.bind_some]
  cases Text.rsplitOnce '.' path with
  | none => rfl
  | some cut =>
    obtain ⟨task, output⟩ := cut
    dsimp only
    cases TaskOutput.all.find? (·.name = output) with
    | none => rfl
    | some output => cases TaskId.fromStr task <;> rfl

theorem parseReference_of_no_path {inner : Text}
    (h : Text.stripPrefix tasksPrefix (Text.trim inner) = none) :
    parseReference (opening ++ inner ++ closing) = none := by
  unfold parseReference
  simp only [Option.bind_eq_bind]
  rw [List.append_assoc opening, stripPrefix_append, Option.bind_some, stripSuffix_append,
    Option.bind_some, h]
  rfl

theorem stripPrefix_some {pattern text rest : Text} (h : Text.stripPrefix pattern text = some rest) :
    text = pattern ++ rest := by
  unfold Text.stripPrefix at h
  split at h
  · rename_i hpre
    obtain ⟨more, rfl⟩ := List.isPrefixOf_iff_prefix.mp hpre
    simpa using h
  · cases h

theorem isFaulty_iff (inner : Text) :
    isFaulty (opening ++ inner ++ closing) = true ↔ NamesNoOutput (opening ++ inner ++ closing) := by
  unfold isFaulty NamesNoOutput
  constructor
  · intro faulty
    cases hpath : Text.stripPrefix tasksPrefix (Text.trim inner) with
    | none =>
      rw [parseReference_of_no_path hpath] at faulty
      cases faulty
    | some path =>
      have starts := stripPrefix_some hpath
      refine ⟨inner, path, rfl, starts, ?_⟩
      rintro id output rfl
      rw [parseReference_of_path starts, Text.rsplitOnce_append _ output.dot_notMem_name]
        at faulty
      simp [fromStr_text] at faulty
  · rintro ⟨inner', path, same, starts, unnamed⟩
    obtain rfl : inner = inner' := List.append_cancel_left (List.append_cancel_right same)
    rw [parseReference_of_path starts]
    cases hcut : Text.rsplitOnce '.' path with
    | none => rfl
    | some cut =>
      obtain ⟨task, name⟩ := cut
      dsimp only
      cases hfind : TaskOutput.all.find? (·.name = name) with
      | none => rfl
      | some output =>
        cases hid : TaskId.fromStr task with
        | error => rfl
        | ok id =>
          have hname : output.name = name := by simpa using List.find?_some hfind
          refine absurd ?_ (unnamed id output)
          rw [Text.rsplitOnce_some hcut, text_of_fromStr hid, hname]

theorem parse_ok_iff : (∃ template, parse text = .ok template) ↔ Sound text := by
  constructor
  · rintro ⟨template, h⟩
    obtain ⟨pieces, reads, -⟩ := parse_reads h
    exact reads.sound
  · exact parse_of_sound

theorem scan_braces {placeholder : Text} (h : placeholder ∈ (scan text).1) :
    ∃ inner, placeholder = opening ++ inner ++ closing := by
  induction hn : text.length using Nat.strong_induction_on generalizing text with
  | _ n ih =>
    subst hn
    cases hnext : nextPlaceholder text with
    | none => simp [scan_none hnext] at h
    | some found =>
      obtain ⟨before, first, after⟩ := found
      have shorter := nextPlaceholder_length hnext
      rw [scan_some hnext, List.mem_cons] at h
      rcases h with rfl | h
      · obtain ⟨inner, braces, -⟩ := nextPlaceholder_iff.mp hnext
        exact ⟨inner, braces⟩
      · exact ih after.length (by omega) h rfl

theorem parse_error_iff : (∃ error, parse text = .error error) ↔
    ∃ placeholder ∈ (scan text).1, NamesNoOutput placeholder := by
  have refused : (∃ error, parse text = .error error) ↔ ¬ Sound text := by
    rw [← parse_ok_iff]
    cases parse text <;> simp
  rw [refused, Sound]
  push Not
  refine exists_congr fun placeholder => and_congr_right fun found => ?_
  obtain ⟨inner, rfl⟩ := scan_braces found
  rw [← isFaulty_iff, Bool.ne_false_iff]

/-! ## What a template gives back -/

theorem filled_of_none {pieces : List Piece} (none : pieces.filterMap Piece.reference = [])
    (output : OutputReference → Text) :
    pieces.flatMap (Piece.filled output) = pieces.flatMap Piece.text := by
  refine List.flatMap_congr fun piece h => ?_
  cases piece with
  | literal text => rfl
  | placeholder text reference => cases List.filterMap_eq_nil_iff.mp none _ h

/-- Nothing of a text is lost: its template gives it back when each reference is replaced by its
spelling, and comes back itself from the text with every reference in its display form. A text is
refused when one of its pairs of braces names no output. -/
theorem parse_lossless (text : Text) :
    (∀ template, parse text = .ok template →
      (spellings text).map parseReference =
        template.references.map (fun reference => some (.ok reference)) ∧
      renderFrom inTurn (spellings text) template.segments = .ok text ∧
      (template.references = [] → ∀ lookup, template.render lookup = .ok text) ∧
      ∃ displayed, template.render (fun reference => some reference.display) = .ok displayed ∧
        parse displayed = .ok template) ∧
    ((∃ error, parse text = .error error) ↔
      ∃ placeholder ∈ (scan text).1, NamesNoOutput placeholder) := by
  refine ⟨fun template parsed => ?_, parse_error_iff⟩
  obtain ⟨pieces, reads, filled, hreferences⟩ := parse_reads parsed
  obtain rfl := Except.ok.inj (parsed.symm.trans (parse_of_reads reads))
  have spelled := renderFrom_spellings reads
  refine ⟨?_, spelled, fun none lookup => ?_, ?_⟩
  · rw [hreferences]
    exact parseReference_spellings reads
  · have each : ∀ reference ∈ references ⟨pieces.foldl Piece.push []⟩,
        lookup reference = some [] := by
      rw [none]
      nofun
    rw [render_eq_fill (fun _ => []) each, filled, filled_of_none (hreferences.symm.trans none),
      reads.text]
  · refine ⟨_, render_eq_fill OutputReference.display fun _ _ => rfl, ?_⟩
    rw [filled, parse_of_reads reads.respelled, foldl_push_respelled]

end Core.Template

end Beez
