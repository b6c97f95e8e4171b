import Beez.Sandbox.Http
import Beez.Utf8

/-! # The head that the proxy sends on -/

namespace Beez

namespace Text

/-! ## Lines -/

def crlf : Text := ['\r', '\n']

/-- No line break is inside. -/
def IsLine (text : Text) : Prop := ¬ crlf <:+: text

instance (text : Text) : Decidable (IsLine text) := inferInstanceAs (Decidable (¬ _))

theorem isLine_nil : IsLine [] := by
  intro h
  simpa [crlf] using h.length_le

theorem splitLines_crlf (rest : Text) : splitLines (crlf ++ rest) = [] :: splitLines rest := rfl

/-- A character that opens no line break belongs to the first line. -/
theorem splitLines_cons {c : Char} {rest part : Text} {parts : List Text}
    (h : ¬ crlf <+: c :: rest) (hrest : splitLines rest = part :: parts) :
    splitLines (c :: rest) = (c :: part) :: parts := by
  rw [splitLines, hrest]
  rintro rest' rfl rfl
  exact h ⟨rest', rfl⟩

theorem IsLine.tail {c : Char} {line : Text} (h : IsLine (c :: line)) : IsLine line := by
  intro inside
  exact h (inside.trans (List.suffix_cons c line).isInfix)

/-- No line break starts inside a line, also when one follows it. -/
theorem IsLine.no_break {c : Char} {line : Text} (h : IsLine (c :: line)) (rest : Text) :
    ¬ crlf <+: c :: (line ++ (crlf ++ rest)) := by
  rintro ⟨more, heq⟩
  simp only [crlf, List.cons_append, List.nil_append, List.cons.injEq] at heq
  obtain ⟨rfl, heq⟩ := heq
  cases line with
  | nil => simp at heq
  | cons d line =>
    rw [List.cons_append, List.cons.injEq] at heq
    obtain ⟨rfl, -⟩ := heq
    exact h ⟨[], line, rfl⟩

theorem splitLines_append {line : Text} (h : IsLine line) (rest : Text) :
    splitLines (line ++ (crlf ++ rest)) = line :: splitLines rest := by
  induction line with
  | nil => exact splitLines_crlf rest
  | cons c line ih => exact splitLines_cons (h.no_break rest) (ih h.tail)

theorem splitLines_flatMap {lines : List Text} (h : ∀ line ∈ lines, IsLine line) (rest : Text) :
    splitLines (lines.flatMap (· ++ crlf) ++ rest) = lines ++ splitLines rest := by
  induction lines with
  | nil => rfl
  | cons line lines ih =>
    rw [List.forall_mem_cons] at h
    rw [List.flatMap_cons, List.append_assoc, List.append_assoc, splitLines_append h.1, ih h.2,
      List.cons_append]

theorem splitLines_ne_nil (text : Text) : splitLines text ≠ [] := by
  fun_induction splitLines text with
  | case1 => simp
  | case2 => simp
  | case3 => simp
  | case4 => simp

theorem isLine_cons {c : Char} {line : Text} (h : IsLine line) (start : ¬ crlf <+: c :: line) :
    IsLine (c :: line) := by
  intro inside
  rcases List.infix_cons_iff.mp inside with first | later
  · exact start first
  · exact h later

/-- Every text is some whole lines and what follows the last line break. -/
theorem exists_lines (text : Text) :
    ∃ (lines : List Text) (last : Text), (∀ line ∈ lines, IsLine line) ∧ IsLine last ∧
      text = lines.flatMap (· ++ crlf) ++ last := by
  induction hn : text.length using Nat.strong_induction_on generalizing text with
  | _ n ih
  cases text with
  | nil => exact ⟨[], [], by simp, isLine_nil, rfl⟩
  | cons c rest =>
    by_cases start : crlf <+: c :: rest
    · obtain ⟨after, heq⟩ := start
      obtain ⟨lines, last, hlines, hlast, rfl⟩ := ih after.length (by
        have := congrArg List.length heq
        simp only [crlf, List.length_append, List.length_cons] at this hn
        omega) after rfl
      exact ⟨[] :: lines, last, List.forall_mem_cons.mpr ⟨isLine_nil, hlines⟩, hlast, heq.symm⟩
    · obtain ⟨lines, last, hlines, hlast, rfl⟩ := ih rest.length (by
        rw [List.length_cons] at hn
        omega) rest rfl
      cases lines with
      | nil => exact ⟨[], c :: last, by simp, isLine_cons hlast start, rfl⟩
      | cons line lines =>
        rw [List.forall_mem_cons] at hlines
        refine ⟨(c :: line) :: lines, last, ?_, hlast, rfl⟩
        rw [List.forall_mem_cons]
        refine ⟨isLine_cons hlines.1 fun first => start ?_, hlines.2⟩
        exact first.trans ⟨crlf ++ (lines.flatMap (· ++ crlf) ++ last), by simp⟩

theorem splitLines_line {line : Text} (h : IsLine line) : splitLines line = [line] := by
  induction line with
  | nil => rfl
  | cons c line ih =>
    exact splitLines_cons (fun start => h start.isInfix) (ih h.tail)

theorem eq_nil_of_splitLines {text : Text} (h : splitLines text = [[]]) : text = [] := by
  obtain ⟨lines, last, hlines, hlast, rfl⟩ := exists_lines text
  rw [splitLines_flatMap hlines, splitLines_line hlast] at h
  obtain ⟨rfl, rfl⟩ : lines = [] ∧ last = [] := by
    simpa [List.append_eq_singleton_iff] using h
  rfl

end Text

namespace Sandbox

open Text

/-! ## Reading a head -/

theorem headEndAt_cons {b : Byte} {rest : List Byte} (h : ¬ headEnd <+: b :: rest) :
    headEndAt (b :: rest) = (headEndAt rest).map (· + 1) :=
  if_neg fun start => h (List.isPrefixOf_iff_prefix.mp start)

/-- The first mark: it ends a prefix, and every prefix that ends in a mark is at least as long. -/
theorem headEndAt_some {bytes : List Byte} {index : Nat} (h : headEndAt bytes = some index) :
    index + 4 ≤ bytes.length ∧ headEnd <:+ bytes.take (index + 4) ∧
      ∀ front, front <+: bytes → headEnd <:+ front → index + 4 ≤ front.length := by
  induction bytes generalizing index with
  | nil => cases h
  | cons b rest ih =>
    by_cases start : headEnd <+: b :: rest
    · obtain rfl : index = 0 := by
        rw [headEndAt, if_pos (List.isPrefixOf_iff_prefix.mpr start)] at h
        exact (Option.some.inj h).symm
      refine ⟨start.length_le, ?_, fun front _ ends => ends.length_le⟩
      obtain ⟨after, heq⟩ := start
      rw [← heq]
      exact List.suffix_rfl
    · rw [headEndAt_cons start] at h
      obtain ⟨index', hrest, rfl⟩ := Option.map_eq_some_iff.mp h
      obtain ⟨bound, ends, first⟩ := ih hrest
      refine ⟨by simpa using bound, ends.trans (List.suffix_cons b _), ?_⟩
      rintro front hfront hends
      cases front with
      | nil => simp [headEnd] at hends
      | cons c front =>
        rcases List.suffix_cons_iff.mp hends with whole | later
        · exact absurd (whole ▸ hfront) start
        · have := first front (List.cons_prefix_cons.mp hfront).2 later
          rw [List.length_cons]
          omega

theorem headEndAt_none {bytes : List Byte} (h : headEndAt bytes = none) {front : List Byte}
    (hfront : front <+: bytes) : ¬ headEnd <:+ front := by
  induction bytes generalizing front with
  | nil =>
    rw [List.prefix_nil.mp hfront]
    simp [headEnd]
  | cons b rest ih =>
    have start : ¬ headEnd <+: b :: rest := by
      intro start
      rw [headEndAt, if_pos (List.isPrefixOf_iff_prefix.mpr start)] at h
      cases h
    rw [headEndAt_cons start, Option.map_eq_none_iff] at h
    intro ends
    cases front with
    | nil => simp [headEnd] at ends
    | cons c front =>
      rcases List.suffix_cons_iff.mp ends with whole | later
      · exact start (whole ▸ hfront)
      · exact ih h (List.cons_prefix_cons.mp hfront).2 later

/-- Chunks that one read each yields. -/
def Chunks (chunks : List (List Byte)) : Prop := ∀ chunk ∈ chunks, chunk ≠ [] ∧ chunk.length ≤ 4096

theorem readSome_chunk {chunk : List Byte} (h : chunk.length ≤ 4096)
    (reads : List (Except ErrorKind (List Byte))) :
    readSome 4096 (.ok chunk :: reads) = (.ok chunk, reads) := by
  rw [readSome, List.take_of_length_le h, if_pos h]

theorem takeHead_nil (buffer : List Byte) : takeHead buffer [] = (.error .unexpectedEof, []) := by
  rw [takeHead]
  rfl

/-- One round of the loop. -/
theorem takeHead_chunk {chunk : List Byte} (full : chunk ≠ []) (h : chunk.length ≤ 4096)
    (buffer : List Byte) (reads : List (Except ErrorKind (List Byte))) :
    takeHead buffer (.ok chunk :: reads) =
      match headEndAt (buffer ++ chunk) with
      | some index =>
        (.ok ((buffer ++ chunk).take (index + 4), (buffer ++ chunk).drop (index + 4)), reads)
      | none =>
        if (buffer ++ chunk).length > headLimit then (.error .invalidData, reads)
        else takeHead (buffer ++ chunk) reads := by
  cases chunk with
  | nil => exact absurd rfl full
  | cons b bytes =>
    have round := takeHead.eq_def buffer (.ok (b :: bytes) :: reads)
    rw [readSome_chunk h] at round
    exact round

/-- What the loop has read when it ends, and why it ends there. -/
structure HeadRead (buffer : List Byte) (chunks : List (List Byte))
    (result : Except ErrorKind (List Byte × List Byte)) (used unused : List (List Byte)) : Prop where
  chunks : chunks = used ++ unused
  bound : buffer.length ≤ headLimit → (buffer ++ used.flatten).length ≤ headLimit + 4096
  found : ∀ head rest, result = .ok (head, rest) → ∃ index,
    headEndAt (buffer ++ used.flatten) = some index ∧
      head = (buffer ++ used.flatten).take (index + 4) ∧
      rest = (buffer ++ used.flatten).drop (index + 4)
  refused : ∀ error, result = .error error → headEndAt (buffer ++ used.flatten) = none ∧
    (unused = [] ∨ headLimit < (buffer ++ used.flatten).length)

theorem takeHead_read {chunks : List (List Byte)} (h : Chunks chunks) (buffer : List Byte)
    (clear : headEndAt buffer = none) :
    ∃ used unused, (takeHead buffer (chunks.map .ok)).2 = unused.map .ok ∧
      HeadRead buffer chunks (takeHead buffer (chunks.map .ok)).1 used unused := by
  induction chunks generalizing buffer with
  | nil =>
    rw [List.map_nil, takeHead_nil]
    refine ⟨[], [], rfl, rfl, fun small => ?_, ?_, ?_⟩
    · rw [List.flatten_nil, List.append_nil]
      exact Nat.le_trans small (Nat.le_add_right _ _)
    · rintro head rest ⟨⟩
    · intro error _
      rw [List.flatten_nil, List.append_nil]
      exact ⟨clear, .inl rfl⟩
  | cons chunk chunks ih =>
    rw [Chunks, List.forall_mem_cons] at h
    have grown : buffer.length ≤ headLimit → (buffer ++ [chunk].flatten).length ≤ headLimit + 4096 := by
      simp only [List.flatten_singleton, List.length_append]
      omega
    rw [List.map_cons, takeHead_chunk h.1.1 h.1.2]
    cases hend : headEndAt (buffer ++ chunk) with
    | some index =>
      refine ⟨[chunk], chunks, rfl, rfl, grown, ?_, ?_⟩
      · intro head rest heq
        cases heq
        exact ⟨index, by simpa using hend, by simp, by simp⟩
      · rintro error ⟨⟩
    | none =>
      dsimp only
      split
      · rename_i large
        refine ⟨[chunk], chunks, rfl, rfl, grown, ?_, ?_⟩
        · rintro head rest ⟨⟩
        · intro error _
          exact ⟨by simpa using hend, .inr (by simpa using large)⟩
      · rename_i small
        obtain ⟨used, unused, hrest, read⟩ := ih h.2 (buffer ++ chunk) hend
        have all : buffer ++ (chunk :: used).flatten = buffer ++ chunk ++ used.flatten := by simp
        refine ⟨chunk :: used, unused, hrest, by rw [read.chunks, List.cons_append], ?_, ?_, ?_⟩
        · rw [all]
          exact fun _ => read.bound (by omega)
        · rw [all]
          exact read.found
        · rw [all]
          exact read.refused

/-- A buffer that the loop holds after some read. -/
inductive Holds : List Byte → List (Except ErrorKind (List Byte)) → List Byte → Prop where
  | grown {buffer reads bytes rest} : readSome 4096 reads = (.ok bytes, rest) →
      Holds buffer reads (buffer ++ bytes)
  | later {buffer reads bytes rest held} : readSome 4096 reads = (.ok bytes, rest) →
      bytes ≠ [] → headEndAt (buffer ++ bytes) = none → ¬ (buffer ++ bytes).length > headLimit →
      Holds (buffer ++ bytes) rest held → Holds buffer reads held

theorem length_readSome {size : Nat} {reads rest : List (Except ErrorKind (List Byte))}
    {bytes : List Byte} (h : readSome size reads = (.ok bytes, rest)) : bytes.length ≤ size := by
  unfold readSome at h
  split at h
  · cases h
    simp
  · cases h
  · obtain ⟨hbytes, -⟩ := Prod.mk.inj h
    obtain rfl := Except.ok.inj hbytes
    rw [List.length_take]
    omega

theorem Holds.bound {buffer held : List Byte} {reads : List (Except ErrorKind (List Byte))}
    (h : Holds buffer reads held) (small : buffer.length ≤ headLimit) :
    held.length ≤ headLimit + 4096 := by
  induction h with
  | grown read =>
    have := length_readSome read
    rw [List.length_append]
    omega
  | later read _ _ within _ ih => exact ih (by omega)

/-- A prefix of the stream that ends in the mark, and no shorter one does. -/
def ShortestHead (stream head : List Byte) : Prop :=
  head <+: stream ∧ headEnd <:+ head ∧
    ∀ front, front <+: stream → headEnd <:+ front → head.length ≤ front.length

theorem shortestHead_take {bytes after : List Byte} {index : Nat}
    (h : headEndAt bytes = some index) : ShortestHead (bytes ++ after) (bytes.take (index + 4)) := by
  obtain ⟨bound, ends, first⟩ := headEndAt_some h
  refine ⟨(List.take_prefix _ _).trans (List.prefix_append _ _), ends, fun front hfront hends => ?_⟩
  rw [List.length_take, Nat.min_eq_left bound]
  by_cases inside : front.length ≤ bytes.length
  · exact first front (List.prefix_of_prefix_length_le hfront (List.prefix_append _ _) inside) hends
  · omega

/-- What the loop has read holds no head when it refuses. -/
theorem ShortestHead.not_read {bytes after head : List Byte} (h : ShortestHead (bytes ++ after) head)
    (clear : headEndAt bytes = none) : bytes.length < head.length := by
  by_contra inside
  have within := List.prefix_of_prefix_length_le h.1 (List.prefix_append _ _) (Nat.le_of_not_lt inside)
  exact headEndAt_none clear within h.2.1

theorem ShortestHead.unique {stream head other : List Byte} (h : ShortestHead stream head)
    (ho : ShortestHead stream other) : head = other := by
  have length := Nat.le_antisymm (h.2.2 other ho.1 ho.2.1) (ho.2.2 head h.1 h.2.1)
  exact (List.prefix_of_prefix_length_le h.1 ho.1 (Nat.le_of_eq length)).eq_of_length length

/-- Whatever the chunks, the head is the shortest one, and its size alone decides on it. -/
theorem readHead_chunks {chunks : List (List Byte)} (h : Chunks chunks) (exchange : Exchange)
    (reads : exchange.reads = chunks.map .ok) :
    (∃ used unused, chunks = used ++ unused ∧ (readHead exchange).2.reads = unused.map .ok ∧
      used.flatten.length ≤ 65536 + 4096 ∧ ∀ head rest, (readHead exchange).1 = .ok (head, rest) →
        ShortestHead chunks.flatten head ∧ head ++ rest = used.flatten) ∧
    (∀ head, ShortestHead chunks.flatten head → head.length ≤ 65536 →
      ∃ rest, (readHead exchange).1 = .ok (head, rest)) ∧
    ((∀ head, ShortestHead chunks.flatten head → 65536 + 4096 < head.length) →
      ∃ error, (readHead exchange).1 = .error error) ∧
    ∀ held, Holds [] exchange.reads held → held.length ≤ 65536 + 4096 := by
  have hresult : (readHead exchange).1 = (takeHead [] (chunks.map .ok)).1 := by
    rw [← reads]
    rfl
  have hleft : (readHead exchange).2.reads = (takeHead [] (chunks.map .ok)).2 := by
    rw [← reads]
    rfl
  rw [hresult, hleft]
  obtain ⟨used, unused, hrest, read⟩ := takeHead_read h [] rfl
  generalize takeHead [] (chunks.map .ok) = out at *
  obtain ⟨result, reads⟩ := out
  have hstream : chunks.flatten = used.flatten ++ unused.flatten := by
    rw [read.chunks, List.flatten_append]
  have bound : used.flatten.length ≤ 65536 + 4096 := read.bound (Nat.zero_le _)
  refine ⟨⟨used, unused, read.chunks, hrest, bound, ?_⟩, ?_, ?_, fun held hheld => ?_⟩
  · rintro head rest rfl
    obtain ⟨index, hend, rfl, rfl⟩ := read.found head rest rfl
    rw [hstream]
    exact ⟨shortestHead_take hend, List.take_append_drop _ _⟩
  · intro head hhead small
    cases result with
    | ok parts =>
      obtain ⟨head', rest⟩ := parts
      obtain ⟨index, hend, rfl, rfl⟩ := read.found head' rest rfl
      rw [hstream] at hhead
      rw [hhead.unique (shortestHead_take hend)]
      exact ⟨_, rfl⟩
    | error error =>
      obtain ⟨hnone, ended | large⟩ := read.refused error rfl
      · rw [hstream, ended, List.flatten_nil] at hhead
        have := hhead.1.length_le
        have := hhead.not_read hnone
        rw [List.append_nil] at *
        omega
      · have := (hstream ▸ hhead).not_read hnone
        rw [List.nil_append, headLimit] at large
        omega
  · intro large
    cases result with
    | error error => exact ⟨error, rfl⟩
    | ok parts =>
      obtain ⟨head', rest⟩ := parts
      obtain ⟨index, hend, rfl, rfl⟩ := read.found head' rest rfl
      have := large _ (hstream ▸ shortestHead_take hend)
      rw [List.length_take, List.nil_append] at this
      omega
  · exact hheld.bound (Nat.zero_le _)

/-- A head whose mark straddles two reads, with a byte after it. -/
def straddling : Exchange :=
  { reads := [[71, 13, 10, 13], [10, 66]].map .ok, outcomes := [], log := [], reported := [],
    diagnostics := [] }

theorem readHead_chunks_straddling :
    (∃ used unused, [[71, 13, 10, 13], [10, 66]] = used ++ unused ∧
      (readHead straddling).2.reads = unused.map .ok ∧
      used.flatten.length ≤ 65536 + 4096 ∧ ∀ head rest, (readHead straddling).1 = .ok (head, rest) →
        ShortestHead [71, 13, 10, 13, 10, 66] head ∧ head ++ rest = used.flatten) ∧
    (∀ head, ShortestHead [71, 13, 10, 13, 10, 66] head → head.length ≤ 65536 →
      ∃ rest, (readHead straddling).1 = .ok (head, rest)) ∧
    ((∀ head, ShortestHead [71, 13, 10, 13, 10, 66] head → 65536 + 4096 < head.length) →
      ∃ error, (readHead straddling).1 = .error error) ∧
    ∀ held, Holds [] straddling.reads held → held.length ≤ 65536 + 4096 :=
  @readHead_chunks [[71, 13, 10, 13], [10, 66]] (by simp [Chunks]) straddling rfl

/-! ## Heads -/

/-- The mark is at the end and nowhere else. -/
def EndsOnce {α : Type} (mark text : List α) : Prop :=
  mark <:+ text ∧ ∀ before after, text = before ++ (mark ++ after) → after = []

/-- A head of lines, each with a line break after it and then an empty line. -/
structure IsHead (head requestLine : Text) (fields : List Text) : Prop where
  text : head = (requestLine :: fields).flatMap (· ++ crlf) ++ crlf
  lines : ∀ line ∈ requestLine :: fields, IsLine line
  nonempty : ∀ line ∈ requestLine :: fields, line ≠ []

variable {head requestLine : Text} {fields : List Text}

theorem IsHead.splitLines (h : IsHead head requestLine fields) :
    splitLines head = requestLine :: (fields ++ [[], []]) := by
  have cut := splitLines_flatMap h.lines crlf
  rw [← h.text] at cut
  exact cut

theorem IsHead.endsOnce (h : IsHead head requestLine fields) : EndsOnce (crlf ++ crlf) head := by
  constructor
  · obtain ⟨init, last, hinit⟩ := (List.eq_nil_or_concat (requestLine :: fields)).resolve_left
      (List.cons_ne_nil _ _)
    rw [h.text, hinit, List.concat_eq_append, List.flatMap_append]
    exact ⟨init.flatMap (· ++ crlf) ++ last, by simp⟩
  · intro before after heq
    obtain ⟨lines, last, hlines, hlast, rfl⟩ := exists_lines before
    -- The empty line of a mark is the empty line after the last field.
    have cut : (requestLine :: fields) ++ [[], []] =
        (lines ++ [last]) ++ [] :: Text.splitLines after := by
      rw [List.cons_append, ← h.splitLines, heq, List.append_assoc, splitLines_flatMap hlines,
        List.append_assoc, splitLines_append hlast, splitLines_crlf, List.append_assoc]
      rfl
    apply eq_nil_of_splitLines
    rcases List.append_eq_append_iff.mp cut with ⟨more, -, hmore⟩ | ⟨more, hmore, hrest⟩
    · cases more with
      | nil => simpa using hmore.symm
      | cons line more =>
        have := congrArg List.length hmore
        have := List.length_pos_iff.mpr (splitLines_ne_nil after)
        simp only [List.length_append, List.length_cons, List.length_nil] at *
        omega
    · cases more with
      | nil => simpa using hrest
      | cons line more =>
        rw [List.cons_append, List.cons.injEq] at hrest
        exact absurd hrest.1.symm (h.nonempty line (by rw [hmore]; simp))

/-- A text that ends once in an empty line, and not at its start, is a head of lines. -/
theorem isHead_of_endsOnce (ended : EndsOnce (crlf ++ crlf) head)
    (named : (Text.splitLines head).headD [] ≠ []) :
    ∃ requestLine fields, IsHead head requestLine fields := by
  obtain ⟨⟨init, rfl⟩, only⟩ := ended
  obtain ⟨lines, last, hlines, hlast, rfl⟩ := exists_lines init
  have each : ∀ line ∈ lines ++ [last], IsLine line := by
    rw [List.forall_mem_append]
    exact ⟨hlines, List.forall_mem_singleton.mpr hlast⟩
  have text : lines.flatMap (· ++ crlf) ++ last ++ (crlf ++ crlf) =
      (lines ++ [last]).flatMap (· ++ crlf) ++ crlf := by simp
  rw [text] at named only ⊢
  rw [splitLines_flatMap each] at named
  cases hall : lines ++ [last] with
  | nil => simp at hall
  | cons requestLine fields =>
    rw [hall] at named only each
    refine ⟨requestLine, fields, rfl, each, List.forall_mem_cons.mpr ⟨named, ?_⟩⟩
    rintro line hline rfl
    -- An empty field right after another line would end the head early.
    obtain ⟨front, rest, rfl⟩ := List.append_of_mem hline
    obtain ⟨before, previous, hbefore⟩ :=
      (List.eq_nil_or_concat (requestLine :: front)).resolve_left (List.cons_ne_nil _ _)
    have early := only (before.flatMap (· ++ crlf) ++ previous) (rest.flatMap (· ++ crlf) ++ crlf) (by
      rw [← List.cons_append, hbefore]
      simp)
    simp [crlf] at early

/-! ## The rewritten head -/

/-- The name of a field, in lower case. -/
def fieldName (line : Text) : Text := toAsciiLowercase (trim (line.takeWhile (· != ':')))

/-- A field that names the connection to the proxy. -/
def OfConnection (line : Text) : Prop :=
  fieldName line = "connection".toList ∨ fieldName line = "proxy-connection".toList

instance (line : Text) : Decidable (OfConnection line) := inferInstanceAs (Decidable (_ ∨ _))

def closing : Text := "Connection: close".toList

theorem fieldName_closing : fieldName closing = "connection".toList := by decide

/-- What `rewriteHead` keeps. -/
def forwarded (line : Text) : Bool :=
  line != [] && fieldName line != "connection".toList && fieldName line != "proxy-connection".toList

theorem forwarded_iff (line : Text) : forwarded line = true ↔ line ≠ [] ∧ ¬ OfConnection line := by
  simp only [forwarded, OfConnection, Bool.and_eq_true, bne_iff_ne, not_or, and_assoc]

theorem rewriteHead_eq (h : IsHead head requestLine fields) :
    rewriteHead head = (requestLine :: (fields.filter (¬ OfConnection ·) ++ [closing])).flatMap
      (· ++ crlf) ++ crlf := by
  have kept : (fields ++ [[], []]).filter forwarded = fields.filter (¬ OfConnection ·) := by
    have empty : [[], []].filter forwarded = [] := by decide
    rw [List.filter_append, empty, List.append_nil]
    apply List.filter_congr
    intro line hline
    rw [Bool.eq_iff_iff, forwarded_iff, decide_eq_true_iff]
    exact and_iff_right (h.nonempty line (List.mem_cons_of_mem _ hline))
  have cut : rewriteHead head = requestLine ++ crlf ++
      ((fields ++ [[], []]).filter forwarded).flatMap (· ++ crlf) ++ (closing ++ crlf ++ crlf) := by
    rw [rewriteHead, h.splitLines]
    rfl
  rw [cut, kept]
  simp

theorem isHead_rewriteHead (h : IsHead head requestLine fields) :
    IsHead (rewriteHead head) requestLine (fields.filter (¬ OfConnection ·) ++ [closing]) := by
  have lines := List.forall_mem_cons.mp h.lines
  have nonempty := List.forall_mem_cons.mp h.nonempty
  have closingLine : IsLine closing := by
    intro inside
    have : '\r' ∈ closing := inside.subset List.mem_cons_self
    revert this
    decide
  refine ⟨rewriteHead_eq h, ?_, ?_⟩
  · rw [List.forall_mem_cons, List.forall_mem_append]
    exact ⟨lines.1, fun line hline => lines.2 line (List.mem_of_mem_filter hline),
      List.forall_mem_singleton.mpr closingLine⟩
  · rw [List.forall_mem_cons, List.forall_mem_append]
    exact ⟨nonempty.1, fun line hline => nonempty.2 line (List.mem_of_mem_filter hline),
      List.forall_mem_singleton.mpr (by decide)⟩

theorem filter_ofConnection (fields : List Text) :
    (fields.filter (¬ OfConnection ·) ++ [closing]).filter (¬ OfConnection ·) =
      fields.filter (¬ OfConnection ·) := by
  have dropped : OfConnection closing := .inl fieldName_closing
  rw [List.filter_append, List.filter_filter]
  simp [dropped]

theorem rewriteHead_rewriteHead (h : IsHead head requestLine fields) :
    rewriteHead (rewriteHead head) = rewriteHead head := by
  rw [rewriteHead_eq (isHead_rewriteHead h), filter_ofConnection, rewriteHead_eq h]

/-! ## Parsing -/

/-- The target that a request line names, when it asks for no tunnel. -/
def plainTarget (line : Text) : Option (Text × BitVec 16) := do
  let requestLine := splitOn ' ' line
  let method ← requestLine[0]?
  let target ← requestLine[1]?
  if toAsciiLowercase method = "connect".toList then none
  else
    let rest ← (stripPrefix "http://".toList target).orElse fun _ =>
      stripPrefix "HTTP://".toList target
    splitAuthority (rest.takeWhile (· ∉ ['/', '?', '#'])) 80

theorem parseRequest_plain {head : List Byte} {text : Text} (htext : fromUtf8 head = some text)
    {host : Text} {port : BitVec 16} {forward : Text} :
    parseRequest head = some ⟨host, port, some forward⟩ ↔
      plainTarget ((Text.splitLines text).headD []) = some (host, port) ∧
        forward = rewriteHead text := by
  unfold parseRequest plainTarget
  simp only [htext, Option.bind_eq_bind, Option.bind_some]
  generalize splitOn ' ' ((Text.splitLines text).headD []) = parts
  generalize rewriteHead text = rewritten
  cases parts[0]? with
  | none => simp only [Option.bind_none, reduceCtorEq, false_and]
  | some method =>
    cases parts[1]? with
    | none => simp only [Option.bind_none, Option.bind_some, reduceCtorEq, false_and]
    | some target =>
      simp only [Option.bind_some]
      split
      · simp only [Option.bind_eq_some_iff, reduceCtorEq, false_and, iff_false, not_exists]
        rintro ⟨host', port'⟩ ⟨-, h⟩
        cases h
      · generalize (stripPrefix "http://".toList target).orElse _ = rest
        cases rest with
        | none => simp only [Option.bind_none, reduceCtorEq, false_and]
        | some rest =>
          simp only [Option.bind_some]
          cases splitAuthority (rest.takeWhile (· ∉ ['/', '?', '#'])) 80 with
          | none => simp only [Option.bind_none, reduceCtorEq, false_and]
          | some authority =>
            obtain ⟨host', port'⟩ := authority
            simp [and_assoc, eq_comm]

theorem plainTarget_nil : plainTarget [] = none := by decide

theorem toUtf8_headEnd : toUtf8 (crlf ++ crlf) = headEnd := by decide

theorem ascii_headEnd : ∀ c ∈ crlf ++ crlf, c.toNat < 0x80 := by
  simp [crlf]

/-- The bytes of a text end once in the mark exactly when the text does. -/
theorem endsOnce_toUtf8 {text : Text} :
    EndsOnce headEnd (toUtf8 text) ↔ EndsOnce (crlf ++ crlf) text := by
  rw [← toUtf8_headEnd]
  constructor
  · rintro ⟨⟨front, hfront⟩, only⟩
    constructor
    · rw [← List.append_nil (toUtf8 (crlf ++ crlf))] at hfront
      obtain ⟨before, after, rfl, -, hafter⟩ := toUtf8_split_mark ascii_headEnd hfront.symm
      rw [toUtf8_eq_nil hafter]
      exact ⟨before, by simp [crlf]⟩
    · rintro before after rfl
      apply toUtf8_eq_nil
      exact only (toUtf8 before) (toUtf8 after) (by rw [toUtf8_append, toUtf8_append])
  · rintro ⟨⟨front, rfl⟩, only⟩
    constructor
    · exact ⟨toUtf8 front, (toUtf8_append _ _).symm⟩
    · intro before after heq
      obtain ⟨before', after', htext, -, hafter⟩ := toUtf8_split_mark ascii_headEnd heq
      rw [only before' after' htext] at hafter
      exact hafter.symm

/-- The head that is sent on closes the connection, and is the same request otherwise. -/
theorem rewriteHead_closes {head : List Byte} {host : Text} {port : BitVec 16} {forward : Text}
    (accepted : parseRequest head = some ⟨host, port, some forward⟩)
    (ended : EndsOnce headEnd head) :
    ∃ (text requestLine : Text) (fields : List Text),
      toUtf8 text = head ∧ forward = rewriteHead text ∧
      Text.splitLines text = requestLine :: (fields ++ [[], []]) ∧
      Text.splitLines forward =
        requestLine :: (fields.filter (¬ OfConnection ·) ++ [closing, [], []]) ∧
      (Text.splitLines forward).tail.filter (fieldName · = "connection".toList) = [closing] ∧
      EndsOnce headEnd (toUtf8 forward) ∧
      parseRequest (toUtf8 forward) = some ⟨host, port, some forward⟩ ∧
      rewriteHead forward = forward := by
  obtain ⟨text, htext⟩ : ∃ text, fromUtf8 head = some text := by
    cases h : fromUtf8 head with
    | none =>
      rw [parseRequest, h] at accepted
      cases accepted
    | some text => exact ⟨text, rfl⟩
  obtain ⟨target, rfl⟩ := (parseRequest_plain htext).mp accepted
  obtain rfl := toUtf8_fromUtf8 htext
  have named : (Text.splitLines text).headD [] ≠ [] := by
    intro empty
    rw [empty, plainTarget_nil] at target
    cases target
  obtain ⟨requestLine, fields, h⟩ := isHead_of_endsOnce (endsOnce_toUtf8.mp ended) named
  have rewritten := isHead_rewriteHead h
  have fixed := rewriteHead_rewriteHead h
  refine ⟨text, requestLine, fields, rfl, rfl, h.splitLines, ?_, ?_, ?_, ?_, fixed⟩
  · rw [rewritten.splitLines, List.append_assoc]
    rfl
  · have others : (fields.filter (¬ OfConnection ·)).filter (fieldName · = "connection".toList) = [] := by
      rw [List.filter_eq_nil_iff]
      intro line hline connection
      have := (List.mem_filter.mp hline).2
      exact of_decide_eq_true this (.inl (of_decide_eq_true connection))
    rw [rewritten.splitLines, List.tail_cons, List.filter_append, List.filter_append, others]
    decide
  · exact endsOnce_toUtf8.mpr rewritten.endsOnce
  · rw [parseRequest_plain (fromUtf8_toUtf8 _), fixed]
    rw [h.splitLines, List.headD_cons] at target
    rw [rewritten.splitLines, List.headD_cons]
    exact ⟨target, rfl⟩

def keepAliveHead : Text :=
  "GET http://a.org/ HTTP/1.1\r\nHost: a.org\r\nConnection: keep-alive\r\n\r\n".toList

theorem isHead_keepAlive : IsHead keepAliveHead "GET http://a.org/ HTTP/1.1".toList
    ["Host: a.org".toList, "Connection: keep-alive".toList] where
  text := by decide
  lines := by decide
  nonempty := by decide

/-- A head that asks to keep the connection open. -/
theorem rewriteHead_closes_keepAlive :
    ∃ (text requestLine : Text) (fields : List Text),
      toUtf8 text = toUtf8 keepAliveHead ∧ rewriteHead keepAliveHead = rewriteHead text ∧
      Text.splitLines text = requestLine :: (fields ++ [[], []]) ∧
      Text.splitLines (rewriteHead keepAliveHead) =
        requestLine :: (fields.filter (¬ OfConnection ·) ++ [closing, [], []]) ∧
      (Text.splitLines (rewriteHead keepAliveHead)).tail.filter
        (fieldName · = "connection".toList) = [closing] ∧
      EndsOnce headEnd (toUtf8 (rewriteHead keepAliveHead)) ∧
      parseRequest (toUtf8 (rewriteHead keepAliveHead)) =
        some ⟨"a.org".toList, 80, some (rewriteHead keepAliveHead)⟩ ∧
      rewriteHead (rewriteHead keepAliveHead) = rewriteHead keepAliveHead :=
  rewriteHead_closes
    ((parseRequest_plain (fromUtf8_toUtf8 keepAliveHead)).mpr ⟨by decide, rfl⟩)
    (endsOnce_toUtf8.mpr isHead_keepAlive.endsOnce)

end Sandbox

end Beez
