import Beez.Lib.Decimal
import Beez.Sandbox.Proxy
import Mathlib

/-! # The rules of the allowlist, as a manifest writes them -/

open Beez.Lib

namespace Beez

/-! ## Parsing and writing -/

inductive DomainRuleError where
  | empty
  | invalidCharacter (character : Char)
  | misplacedWildcard
  | invalidPort (port : Text)
deriving DecidableEq, Repr

namespace DomainRule

/-- The host and the port of a rule. -/
def splitPort (value : Text) : Except DomainRuleError (Text × Option (BitVec 16)) :=
  match Text.rsplitOnce ':' value with
  | some (host, port) =>
    match (Text.parseU16 port).filter (· != 0) with
    | some number => .ok (host, some number)
    | none => .error (.invalidPort port)
  | none => .ok (value, none)

def splitWildcard (host : Text) : Text × Bool :=
  match Text.stripPrefix ['*', '.'] host with
  | some host => (host, true)
  | none => (host, false)

def isHostChar (c : Char) : Bool := c.isAlphanum || ['-', '.'].contains c

/-- `value.parse::<DomainRule>()`. -/
def fromStr (value : Text) : Except DomainRuleError DomainRule := do
  let (host, port) ← splitPort value
  let (host, wildcard) := splitWildcard host
  -- A trailing dot names the same host, and `matches` compares without it.
  let host := Text.trimEndMatches ['.'] host
  if host = [] then .error .empty
  else if '*' ∈ host then .error .misplacedWildcard
  else match host.find? (!isHostChar ·) with
    | some character => .error (.invalidCharacter character)
    | none => .ok { host := String.ofList (Text.toAsciiLowercase host), wildcard, port }

def portText : Option (BitVec 16) → Text
  | some port => ':' :: decimal port.toNat
  | none => []

def display (rule : DomainRule) : Text :=
  (if rule.wildcard then ['*', '.'] else []) ++ (rule.host.toList ++ portText rule.port)

example : fromStr "*.NPMjs.org.:443".toList = .ok ⟨"npmjs.org", true, some 443⟩ := by decide
example : fromStr "*.".toList = .error .empty := by decide
example : fromStr "a.*.org".toList = .error .misplacedWildcard := by decide

/-! ## What a rule holds -/

theorem toLower_of_not_alpha {c : Char} (h : c.isAlpha = false) : c.toLower = c :=
  Char.toLower_eq_of_not_isUpper fun upper => by simp [Char.isAlpha, upper] at h

theorem toLower_eq_dot {c : Char} : c.toLower = '.' ↔ c = '.' := by
  constructor
  · intro h
    have other : c.isAlpha = false := by
      rw [← Char.isLower_toLower_eq_isAlpha, h]
      decide
    rwa [toLower_of_not_alpha other] at h
  · rintro rfl
    decide

theorem isHostChar_toLower {c : Char} (h : isHostChar c) : isHostChar c.toLower := by
  cases alpha : c.isAlpha with
  | false => rwa [toLower_of_not_alpha alpha]
  | true => simp [isHostChar, Char.isAlphanum, alpha]

/-- A rule that some text writes. -/
structure WellFormed (rule : DomainRule) : Prop where
  named : rule.host.toList ≠ []
  chars : ∀ c ∈ rule.host.toList, isHostChar c
  lower : ∀ c ∈ rule.host.toList, c.toLower = c
  trimmed : rule.host.toList.getLast? ≠ some '.'
  port : rule.port ≠ some 0

theorem splitPort_ne_zero {value host : Text} {port : Option (BitVec 16)}
    (h : splitPort value = .ok (host, port)) : port ≠ some 0 := by
  unfold splitPort at h
  split at h
  · split at h
    · rename_i number hnumber
      obtain ⟨-, rfl⟩ := Prod.mk.inj (Except.ok.inj h)
      have := (Option.filter_eq_some_iff.mp hnumber).2
      simpa using this
    · cases h
  · obtain ⟨-, rfl⟩ := Prod.mk.inj (Except.ok.inj h)
    simp

theorem fromStr_wellFormed {value : Text} {rule : DomainRule} (h : fromStr value = .ok rule) :
    rule.WellFormed := by
  unfold fromStr at h
  cases hsplit : splitPort value with
  | error e => rw [hsplit] at h; cases h
  | ok cut =>
    obtain ⟨host, port⟩ := cut
    simp only [hsplit, bind, Except.bind] at h
    have trimmed := Text.trimEndMatches_trimmed ['.'] (splitWildcard host).1
    generalize Text.trimEndMatches ['.'] (splitWildcard host).1 = trimmedHost at h trimmed
    obtain ⟨-, -, -, last⟩ := trimmed
    split at h
    · cases h
    rename_i named
    split at h
    · cases h
    split at h
    · cases h
    rename_i chars
    cases h
    simp only [List.find?_eq_none, Bool.not_eq_true', Bool.not_eq_false] at chars
    refine ⟨?_, ?_, ?_, ?_, splitPort_ne_zero hsplit⟩
    · simpa [Text.toAsciiLowercase] using named
    · simp only [String.toList_ofList, Text.toAsciiLowercase, List.forall_mem_map]
      exact fun c hc => isHostChar_toLower (chars c hc)
    · simp [Text.toAsciiLowercase]
    · simp only [String.toList_ofList, Text.toAsciiLowercase, List.getLast?_map]
      intro hlast
      obtain ⟨c, hc, dot⟩ := Option.map_eq_some_iff.mp hlast
      exact last c hc (by rw [toLower_eq_dot.mp dot]; simp)

/-! ## A rule written out reads back -/

theorem parseU16_decimal (port : BitVec 16) :
    Text.parseU16 (decimal port.toNat) = some port := by
  have value : Text.ofDigits (decimal port.toNat) = port.toNat := Nat.ofDigitChars_ten_toDigits
  have unsigned : Text.stripPrefix ['+'] (decimal port.toNat) = none :=
    Text.stripPrefix_of_head fun h => not_mem_decimal (by decide) _ (List.mem_of_head? h)
  rw [Text.parseU16, unsigned, Option.getD_none, if_pos ⟨Text.isDigits_decimal _, by rw [value]; exact port.isLt⟩,
    value, BitVec.ofNat_toNat, BitVec.setWidth_eq]

theorem not_mem_of_not_hostChar {text : Text} (chars : ∀ c ∈ text, isHostChar c) {c : Char}
    (h : isHostChar c = false) : c ∉ text := by
  intro hc
  rw [chars c hc] at h
  cases h

theorem splitPort_display {host : Text} (chars : ':' ∉ host) {port : Option (BitVec 16)}
    (hport : port ≠ some 0) :
    splitPort (host ++ portText port) = .ok (host, port) := by
  cases port with
  | none => rw [portText, List.append_nil, splitPort, Text.rsplitOnce_of_not_mem chars]
  | some port =>
    have named : (Text.parseU16 (decimal port.toNat)).filter (· != 0) = some port := by
      rw [parseU16_decimal, Option.filter_some_pos]
      simpa using hport
    have cut := Text.rsplitOnce_append host
      (not_mem_decimal (by decide : ':'.isDigit = false) port.toNat)
    simp only [splitPort, portText, cut, named]

theorem splitWildcard_display {host : Text} (chars : '*' ∉ host) (wildcard : Bool) :
    splitWildcard ((if wildcard then ['*', '.'] else []) ++ host) = (host, wildcard) := by
  cases wildcard with
  | true => simp [splitWildcard, Text.stripPrefix]
  | false =>
    have bare : Text.stripPrefix ['*', '.'] host = none := by
      unfold Text.stripPrefix
      rw [if_neg]
      intro h
      exact chars ((List.isPrefixOf_iff_prefix.mp h).subset List.mem_cons_self)
    simp [splitWildcard, bare]

theorem trimEndMatches_of_last {characters : List Char} {text : Text}
    (h : ∀ c, text.getLast? = some c → c ∉ characters) :
    Text.trimEndMatches characters text = text := by
  unfold Text.trimEndMatches
  cases hrev : text.reverse with
  | nil => simpa using hrev.symm
  | cons c rest =>
    have last : c ∉ characters := h c (by rw [← List.head?_reverse, hrev, List.head?_cons])
    rw [List.dropWhile_cons_of_neg (by simpa using last), ← hrev, List.reverse_reverse]

theorem fromStr_display {rule : DomainRule} (h : rule.WellFormed) :
    fromStr rule.display = .ok rule := by
  have star : '*' ∉ rule.host.toList := not_mem_of_not_hostChar h.chars (by decide)
  have colon : ':' ∉ (if rule.wildcard then ['*', '.'] else []) ++ rule.host.toList := by
    rw [List.mem_append, not_or]
    exact ⟨by split <;> decide, not_mem_of_not_hostChar h.chars (by decide)⟩
  have trimmed : Text.trimEndMatches ['.'] rule.host.toList = rule.host.toList := by
    apply trimEndMatches_of_last
    intro c hc
    simp only [List.mem_singleton]
    rintro rfl
    exact h.trimmed hc
  have lower : Text.toAsciiLowercase rule.host.toList = rule.host.toList := by
    rw [Text.toAsciiLowercase, List.map_congr_left h.lower, List.map_id']
  have chars : rule.host.toList.find? (!isHostChar ·) = none := by
    simpa using h.chars
  rw [display, ← List.append_assoc, fromStr, splitPort_display colon h.port]
  simp only [bind, Except.bind, splitWildcard_display star, trimmed, if_neg h.named, if_neg star,
    chars, lower, String.ofList_toList]

/-! ## The labels in front of a wildcard's host -/

/-- One or more labels, none of them empty, each with a dot after it. -/
def Labels (front : Text) : Prop :=
  ∃ labels : List Text, labels ≠ [] ∧ (∀ label ∈ labels, label ≠ [] ∧ '.' ∉ label) ∧
    front = labels.flatMap (· ++ ['.'])

/-- Some dot of `front` is its first character or comes right after a dot. -/
def HasEmptyLabel (front : Text) : Prop := [] ∈ (Text.splitOn '.' front).dropLast

theorem splitOn_flatMap {separator : Char} {labels : List Text}
    (clear : ∀ label ∈ labels, separator ∉ label) (rest : Text) :
    Text.splitOn separator (labels.flatMap (· ++ [separator]) ++ rest) =
      labels ++ Text.splitOn separator rest := by
  induction labels with
  | nil => rfl
  | cons label labels ih =>
    rw [List.forall_mem_cons] at clear
    rw [List.flatMap_cons, List.append_assoc, List.append_assoc, List.singleton_append,
      Text.splitOn_append clear.1, ih clear.2, List.cons_append]

theorem exists_labels (separator : Char) (text : Text) :
    ∃ (labels : List Text) (last : Text), (∀ label ∈ labels, separator ∉ label) ∧
      separator ∉ last ∧ text = labels.flatMap (· ++ [separator]) ++ last := by
  induction text with
  | nil => exact ⟨[], [], by simp, by simp, rfl⟩
  | cons c rest ih =>
    obtain ⟨labels, last, clear, hlast, rfl⟩ := ih
    by_cases hc : c = separator
    · refine ⟨[] :: labels, last, List.forall_mem_cons.mpr ⟨by simp, clear⟩, hlast, ?_⟩
      rw [hc, List.flatMap_cons, List.nil_append, List.append_assoc, List.singleton_append]
    · cases labels with
      | nil =>
        refine ⟨[], c :: last, by simp, ?_, rfl⟩
        rw [List.mem_cons, not_or]
        exact ⟨Ne.symm hc, hlast⟩
      | cons label labels =>
        rw [List.forall_mem_cons] at clear
        refine ⟨(c :: label) :: labels, last, ?_, hlast, rfl⟩
        rw [List.forall_mem_cons, List.mem_cons, not_or]
        exact ⟨⟨Ne.symm hc, clear.1⟩, clear.2⟩

theorem Labels.ends {front : Text} (h : Labels front) :
    front.getLast? = some '.' ∧ 1 < front.length := by
  obtain ⟨labels, more, each, rfl⟩ := h
  obtain ⟨init, last, rfl⟩ := (List.eq_nil_or_concat labels).resolve_left more
  have nonempty : last ≠ [] := (each last (by simp)).1
  have := List.length_pos_iff.mpr nonempty
  rw [List.concat_eq_append, List.flatMap_append]
  refine ⟨by simp, ?_⟩
  simp
  omega

theorem labels_iff (front : Text) :
    Labels front ↔ front.getLast? = some '.' ∧ 1 < front.length ∧ ¬ HasEmptyLabel front := by
  constructor
  · intro h
    obtain ⟨last, long⟩ := h.ends
    refine ⟨last, long, ?_⟩
    obtain ⟨labels, -, each, rfl⟩ := h
    have cut := splitOn_flatMap (fun label hl => (each label hl).2) []
    rw [List.append_nil] at cut
    rw [HasEmptyLabel, cut, Text.splitOn, List.dropLast_concat]
    intro hnil
    exact (each [] hnil).1 rfl
  · rintro ⟨dot, long, whole⟩
    obtain ⟨labels, last, clear, hlast, rfl⟩ := exists_labels '.' front
    rw [HasEmptyLabel, splitOn_flatMap clear, Text.splitOn_of_not_mem hlast,
      List.dropLast_concat] at whole
    have ended : last = [] := by
      cases hrev : last.getLast? with
      | none => exact List.getLast?_eq_none_iff.mp hrev
      | some c =>
        rw [List.getLast?_append, hrev, Option.some_or, Option.some.injEq] at dot
        exact absurd (dot ▸ List.mem_of_getLast? hrev) hlast
    subst ended
    rw [List.append_nil] at dot long ⊢
    refine ⟨labels, by rintro rfl; simp at long, fun label hl => ⟨?_, clear label hl⟩, rfl⟩
    rintro rfl
    exact whole hl

/-! ## What a rule matches -/

def normalized (host : Text) : Text := Text.toAsciiLowercase (Text.trimEndMatches ['.'] host)

def AllowsPort (rule : DomainRule) (port : BitVec 16) : Prop :=
  ∀ allowed, rule.port = some allowed → allowed = port

/-- What a rule is for: one host, or every subdomain of it, on one port or on all. -/
def Allows (rule : DomainRule) (host : Text) (port : BitVec 16) : Prop :=
  rule.AllowsPort port ∧
    if rule.wildcard then ∃ front, Labels front ∧ normalized host = front ++ rule.host.toList
    else normalized host = rule.host.toList

/-- The host has an empty label somewhere in front of the rule's host. -/
def EmptyLabelBefore (rule : DomainRule) (host : Text) : Prop :=
  ∃ front, normalized host = front ++ rule.host.toList ∧ front.getLast? = some '.' ∧
    1 < front.length ∧ HasEmptyLabel front

theorem stripSuffix_eq_some {pattern text before : Text} :
    Text.stripSuffix pattern text = some before ↔ text = before ++ pattern := by
  unfold Text.stripSuffix
  constructor
  · intro h
    split at h
    · rename_i suffix
      obtain ⟨front, rfl⟩ := List.isSuffixOf_iff_suffix.mp suffix
      simp only [List.length_append, Nat.add_sub_cancel, List.take_left, Option.some.injEq] at h
      rw [h]
    · cases h
  · rintro rfl
    rw [if_pos (List.isSuffixOf_iff_suffix.mpr (List.suffix_append _ _))]
    simp

theorem matches_iff (rule : DomainRule) (host : Text) (port : BitVec 16) :
    rule.matches host port = true ↔ rule.AllowsPort port ∧
      if rule.wildcard then ∃ front, normalized host = front ++ rule.host.toList ∧
        front.getLast? = some '.' ∧ 1 < front.length
      else normalized host = rule.host.toList := by
  have refused : rule.port.any (· != port) = true ↔ ¬ rule.AllowsPort port := by
    simp [AllowsPort, Option.any_eq_true]
  rw [DomainRule.matches, ← normalized]
  by_cases hport : rule.AllowsPort port
  · rw [if_neg (by rw [refused]; exact not_not_intro hport)]
    simp only [hport, true_and]
    split
    · simp [Option.any_eq_true, stripSuffix_eq_some]
    · simp
  · rw [if_pos (refused.mpr hport)]
    simp [hport]

/-- A wildcard rule lets a host with an empty label through, and every other answer is right. -/
theorem matches_allows_iff {value : Text} {rule : DomainRule} (h : fromStr value = .ok rule)
    (host : Text) (port : BitVec 16) :
    ((rule.matches host port = true ↔ rule.Allows host port) ∧
        fromStr rule.display = .ok rule) ↔
      ¬ (rule.wildcard = true ∧ rule.AllowsPort port ∧ rule.EmptyLabelBefore host) := by
  rw [and_iff_left (fromStr_display (fromStr_wellFormed h)), matches_iff, Allows]
  cases hwild : rule.wildcard with
  | false => simp
  | true =>
    simp only [if_true, labels_iff]
    constructor
    · rintro same ⟨-, hport, front, heq, dot, long, empty⟩
      obtain ⟨-, front', ⟨-, -, whole⟩, heq'⟩ := same.mp ⟨hport, front, heq, dot, long⟩
      rw [List.append_cancel_right (heq.symm.trans heq')] at empty
      exact whole empty
    · intro whole
      apply and_congr_right
      intro hport
      constructor
      · rintro ⟨front, heq, dot, long⟩
        exact ⟨front, ⟨dot, long, fun empty => whole ⟨trivial, hport, front, heq, dot, long, empty⟩⟩,
          heq⟩
      · rintro ⟨front, ⟨dot, long, -⟩, heq⟩
        exact ⟨front, heq, dot, long⟩

def npmRule : DomainRule := ⟨"npmjs.org", true, some 443⟩

theorem fromStr_npmRule : fromStr "*.npmjs.org:443".toList = .ok npmRule := by decide

/-- `*.npmjs.org:443` answers for `registry.npmjs.org` as it should. -/
theorem matches_allows_registry :
    ((npmRule.matches "registry.npmjs.org".toList 443 = true ↔
        npmRule.Allows "registry.npmjs.org".toList 443) ∧
      fromStr npmRule.display = .ok npmRule) ↔
      ¬ (npmRule.wildcard = true ∧ npmRule.AllowsPort 443 ∧
        npmRule.EmptyLabelBefore "registry.npmjs.org".toList) :=
  matches_allows_iff fromStr_npmRule _ _

/-- `a..npmjs.org` is no subdomain of `npmjs.org`, and is let through. -/
theorem empty_label_matches :
    ¬ ∀ (value : Text) (rule : DomainRule) (host : Text) (port : BitVec 16),
      fromStr value = .ok rule →
        (rule.matches host port = true ↔ rule.Allows host port) ∧
          fromStr rule.display = .ok rule := by
  intro claim
  have allowed := (claim _ _ "a..npmjs.org".toList 443 fromStr_npmRule).1.mp (by decide)
  obtain ⟨-, front, labels, heq⟩ := allowed
  have cut : normalized "a..npmjs.org".toList = "a..".toList ++ npmRule.host.toList := by decide
  obtain rfl := List.append_cancel_right (cut.symm.trans heq)
  have empty : HasEmptyLabel "a..".toList := by
    rw [HasEmptyLabel]
    decide
  exact ((labels_iff _).mp labels).2.2 empty

end DomainRule

end Beez
