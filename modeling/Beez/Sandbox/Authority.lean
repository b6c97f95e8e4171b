import Beez.Sandbox.Http

/-! # The hosts and ports that request targets name -/

open Beez.Text

namespace Beez.Sandbox

/-! ## What a target may be -/

/-- Digits only, for a number that fits in 16 bits. -/
def IsPort (text : Text) (port : BitVec 16) : Prop :=
  isDigits text = true ∧ ofDigits text = port.toNat

/-- What a target names, in brackets if it is an address. -/
inductive NameKind where
  | host | address
deriving DecidableEq

/-- `rest` is what comes after the userinfo of `authority`, if it has one. -/
def AfterUserinfo (authority rest : Text) : Prop :=
  '@' ∉ rest ∧ (authority = rest ∨ ∃ userinfo, authority = userinfo ++ '@' :: rest)

/-- The text is `host`, `host:port`, `[address]` or `[address]:port`, and names that host and
port. -/
inductive Form (defaultPort : BitVec 16) : Text → NameKind → Text → BitVec 16 → Prop
  | host {host : Text} (bare : host.head? ≠ some '[') (whole : ':' ∉ host) :
    Form defaultPort host .host host defaultPort
  | hostPort {host digits : Text} {port : BitVec 16} (bare : host.head? ≠ some '[')
    (number : IsPort digits port) : Form defaultPort (host ++ ':' :: digits) .host host port
  | address {address : Text} (whole : ']' ∉ address) :
    Form defaultPort ('[' :: (address ++ [']'])) .address address defaultPort
  | addressPort {address digits : Text} {port : BitVec 16} (whole : ']' ∉ address)
    (number : IsPort digits port) :
    Form defaultPort ('[' :: (address ++ ']' :: ':' :: digits)) .address address port

/-- What `authority` names, where `IsName` says what may stand for a host and for an address. -/
def Writes (IsName : NameKind → Text → Prop) (defaultPort : BitVec 16) (authority host : Text)
    (port : BitVec 16) : Prop :=
  ∃ rest kind, AfterUserinfo authority rest ∧ Form defaultPort rest kind host port ∧
    IsName kind host

/-- Text that has none of the forms, and that is split all the same. -/
inductive Slips : Text → Prop
  -- Characters between `]` and the end that are not a colon and a port.
  | behind {address tail : Text} (whole : ']' ∉ address) (left : tail ≠ [])
    (other : tail.head? ≠ some ':') : Slips ('[' :: (address ++ ']' :: tail))
  -- A plus sign before the digits of the port.
  | hostSign {host digits : Text} {port : BitVec 16} (bare : host.head? ≠ some '[')
    (number : IsPort digits port) : Slips (host ++ ':' :: '+' :: digits)
  | addressSign {address digits : Text} {port : BitVec 16} (whole : ']' ∉ address)
    (number : IsPort digits port) : Slips ('[' :: (address ++ ']' :: ':' :: '+' :: digits))

/-! ## Ports -/

theorem IsPort.not_mem {digits : Text} {port : BitVec 16} (h : IsPort digits port) {c : Char}
    (other : ('0' ≤ c && c ≤ '9') = false) : c ∉ digits :=
  not_mem_of_isDigits h.1 other

theorem IsPort.not_signed {digits : Text} {port : BitVec 16} : ¬ IsPort ('+' :: digits) port :=
  fun h => h.not_mem (by decide) List.mem_cons_self

theorem IsPort.colon_not_mem {digits : Text} {port : BitVec 16} (h : IsPort digits port) :
    ':' ∉ '+' :: digits :=
  List.not_mem_cons_of_ne_of_not_mem (by decide) (h.not_mem (by decide))

theorem isPort_iff {digits : Text} {port : BitVec 16} : IsPort digits port ↔
    (isDigits digits = true ∧ ofDigits digits < 2 ^ 16) ∧
      BitVec.ofNat 16 (ofDigits digits) = port := by
  constructor
  · rintro ⟨only, value⟩
    rw [value, BitVec.ofNat_toNat, BitVec.setWidth_eq]
    exact ⟨⟨only, port.isLt⟩, rfl⟩
  · rintro ⟨⟨only, fits⟩, rfl⟩
    exact ⟨only, by rw [BitVec.toNat_ofNat, Nat.mod_eq_of_lt fits]⟩

/-- A port is read with a plus sign or without. -/
theorem parseU16_iff {text : Text} {port : BitVec 16} : parseU16 text = some port ↔
    IsPort text port ∨ ∃ digits, text = '+' :: digits ∧ IsPort digits port := by
  have read : ∀ digits, (if isDigits digits = true ∧ ofDigits digits < 2 ^ 16 then
      some (BitVec.ofNat 16 (ofDigits digits)) else none) = some port ↔ IsPort digits port := by
    intro digits
    rw [isPort_iff]
    split
    · rename_i fits
      rw [Option.some.injEq]
      exact (and_iff_right fits).symm
    · rename_i fits
      exact iff_of_false nofun fun number => fits number.1
  unfold parseU16
  by_cases signed : text.head? = some '+'
  · obtain ⟨rest, rfl⟩ : ∃ rest, text = '+' :: rest := List.head?_eq_some_iff.mp signed
    rw [stripPrefix_cons, Option.getD_some, read]
    constructor
    · exact fun number => .inr ⟨rest, rfl, number⟩
    · rintro (number | ⟨digits, same, number⟩)
      · exact absurd List.mem_cons_self (number.not_mem (by decide))
      · rwa [(List.cons.inj same).2]
  · rw [stripPrefix_of_head signed, Option.getD_none, read]
    refine (or_iff_left ?_).symm
    rintro ⟨digits, rfl, -⟩
    exact signed rfl

/-! ## The splits -/

variable {authority rest inner host address port tail : Text} {defaultPort number : BitVec 16}

theorem exists_last {c : Char} {text : Text} (h : c ∈ text) :
    ∃ before after, text = before ++ c :: after ∧ c ∉ after := by
  obtain ⟨back, front, cut, last⟩ := List.eq_append_cons_of_mem (List.mem_reverse.mpr h)
  refine ⟨front.reverse, back.reverse, ?_, by simpa using last⟩
  simpa using congrArg List.reverse cut

theorem exists_afterUserinfo (authority : Text) : ∃ rest, AfterUserinfo authority rest := by
  by_cases mem : '@' ∈ authority
  · obtain ⟨userinfo, rest, cut, whole⟩ := exists_last mem
    exact ⟨rest, whole, .inr ⟨userinfo, cut⟩⟩
  · exact ⟨authority, mem, .inl rfl⟩

/-- The userinfo is left out before anything else is read. -/
theorem splitAuthority_afterUserinfo (after : AfterUserinfo authority rest) :
    splitAuthority authority defaultPort = splitAuthority rest defaultPort := by
  obtain ⟨whole, rfl | ⟨userinfo, rfl⟩⟩ := after
  · rfl
  · unfold splitAuthority
    rw [rsplitOnce_append userinfo whole, rsplitOnce_of_not_mem whole]
    rfl

theorem AfterUserinfo.unique {other : Text} (first : AfterUserinfo authority rest)
    (second : AfterUserinfo authority other) : rest = other := by
  obtain ⟨whole, rfl | ⟨userinfo, rfl⟩⟩ := first
  · obtain ⟨-, rfl | ⟨userinfo, rfl⟩⟩ := second
    · rfl
    · exact absurd (by simp) whole
  · obtain ⟨whole', rfl | ⟨userinfo', same⟩⟩ := second
    · exact absurd (by simp) whole'
    · have cut := congrArg (rsplitOnce '@') same
      rw [rsplitOnce_append userinfo whole, rsplitOnce_append userinfo' whole'] at cut
      exact (Prod.mk.inj (Option.some.inj cut)).2

/-- What is split where nothing is left of a userinfo. -/
theorem splitAuthority_plain (plain : '@' ∉ rest) : splitAuthority rest defaultPort =
    match stripPrefix ['['] rest with
    | some inner => (splitOnce ']' inner).bind fun (address, tail) =>
      match stripPrefix [':'] tail with
      | some port => (parseU16 port).map fun number => (address, number)
      | none => some (address, defaultPort)
    | none =>
      match rsplitOnce ':' rest with
      | some (host, port) => (parseU16 port).map fun number => (host, number)
      | none => some (rest, defaultPort) := by
  unfold splitAuthority
  rw [rsplitOnce_of_not_mem plain]
  simp only [Option.map_eq_bind]
  rfl

theorem splitAuthority_open (plain : '@' ∉ '[' :: inner) (unclosed : ']' ∉ inner) :
    splitAuthority ('[' :: inner) defaultPort = none := by
  rw [splitAuthority_plain plain, stripPrefix_cons]
  simp only [splitOnce_of_not_mem unclosed, Option.bind_none]

theorem splitAuthority_address (plain : '@' ∉ '[' :: (address ++ ']' :: tail))
    (whole : ']' ∉ address) (other : tail.head? ≠ some ':') :
    splitAuthority ('[' :: (address ++ ']' :: tail)) defaultPort = some (address, defaultPort) := by
  rw [splitAuthority_plain plain, stripPrefix_cons]
  simp only [splitOnce_append whole, Option.bind_some, stripPrefix_of_head other]

theorem splitAuthority_addressPort (plain : '@' ∉ '[' :: (address ++ ']' :: ':' :: port))
    (whole : ']' ∉ address) : splitAuthority ('[' :: (address ++ ']' :: ':' :: port)) defaultPort =
      (parseU16 port).map fun number => (address, number) := by
  rw [splitAuthority_plain plain, stripPrefix_cons]
  simp only [splitOnce_append whole, Option.bind_some, stripPrefix_cons]

theorem splitAuthority_host (plain : '@' ∉ host) (bare : host.head? ≠ some '[')
    (whole : ':' ∉ host) : splitAuthority host defaultPort = some (host, defaultPort) := by
  rw [splitAuthority_plain plain, stripPrefix_of_head bare]
  simp only [rsplitOnce_of_not_mem whole]

theorem head_append_colon (bare : host.head? ≠ some '[') (port : Text) :
    (host ++ ':' :: port).head? ≠ some '[' := by
  cases host with
  | nil => simp
  | cons c rest => exact bare

theorem splitAuthority_hostPort (plain : '@' ∉ host ++ ':' :: port) (bare : host.head? ≠ some '[')
    (last : ':' ∉ port) : splitAuthority (host ++ ':' :: port) defaultPort =
      (parseU16 port).map fun number => (host, number) := by
  rw [splitAuthority_plain plain, stripPrefix_of_head (head_append_colon bare port)]
  simp only [rsplitOnce_append host last]

/-! ## What is split has a form, or slips through -/

variable {kind : NameKind} {name : Text}

theorem Form.split (form : Form defaultPort rest kind name number) (plain : '@' ∉ rest) :
    splitAuthority rest defaultPort = some (name, number) := by
  cases form with
  | host bare whole => exact splitAuthority_host plain bare whole
  | hostPort bare value =>
    rw [splitAuthority_hostPort plain bare (value.not_mem (by decide)),
      parseU16_iff.mpr (.inl value), Option.map_some]
  | address whole => exact splitAuthority_address plain whole nofun
  | addressPort whole value =>
    rw [splitAuthority_addressPort plain whole, parseU16_iff.mpr (.inl value), Option.map_some]

/-- A form in brackets ends with them, or with a port behind them. -/
theorem Form.tail_of_brackets
    (form : Form defaultPort ('[' :: (address ++ ']' :: tail)) kind name number)
    (whole : ']' ∉ address) :
    tail = [] ∨ ∃ digits value, tail = ':' :: digits ∧ IsPort digits value := by
  generalize same : '[' :: (address ++ ']' :: tail) = rest at form
  cases form with
  | host bare _ =>
    rw [← same] at bare
    exact absurd rfl bare
  | @hostPort _ digits _ bare _ =>
    have bare' := head_append_colon bare digits
    rw [← same] at bare'
    exact absurd rfl bare'
  | address whole' =>
    have cut := congrArg (splitOnce ']') (List.cons.inj same).2
    rw [splitOnce_append whole, splitOnce_append whole'] at cut
    exact .inl (Prod.mk.inj (Option.some.inj cut)).2
  | addressPort whole' value =>
    have cut := congrArg (splitOnce ']') (List.cons.inj same).2
    rw [splitOnce_append whole, splitOnce_append whole'] at cut
    exact .inr ⟨_, _, (Prod.mk.inj (Option.some.inj cut)).2, value⟩

/-- A form with a colon and no brackets ends with a port. -/
theorem Form.port_of_colon (form : Form defaultPort (host ++ ':' :: port) kind name number)
    (bare : host.head? ≠ some '[') (last : ':' ∉ port) : ∃ value, IsPort port value := by
  have bare' : (host ++ ':' :: port).head? ≠ some '[' := head_append_colon bare port
  generalize same : host ++ ':' :: port = rest at form bare'
  cases form with
  | host _ whole =>
    rw [← same] at whole
    exact absurd (by simp) whole
  | hostPort _ value =>
    have cut := congrArg (rsplitOnce ':') same
    rw [rsplitOnce_append host last, rsplitOnce_append _ (value.not_mem (by decide))] at cut
    rw [(Prod.mk.inj (Option.some.inj cut)).2]
    exact ⟨_, value⟩
  | address _ => exact absurd rfl bare'
  | addressPort _ _ => exact absurd rfl bare'

theorem Slips.not_form (slips : Slips rest) : ¬ Form defaultPort rest kind name number := by
  intro form
  cases slips with
  | behind whole left other =>
    rcases form.tail_of_brackets whole with none | ⟨digits, value, rfl, -⟩
    · exact left none
    · exact other rfl
  | hostSign bare value =>
    obtain ⟨_, signed⟩ := form.port_of_colon bare value.colon_not_mem
    exact signed.not_signed
  | addressSign whole value =>
    rcases form.tail_of_brackets whole with none | ⟨digits, _, same, signed⟩
    · cases none
    · rw [← (List.cons.inj same).2] at signed
      exact signed.not_signed

theorem Slips.split (slips : Slips rest) (plain : '@' ∉ rest) (defaultPort : BitVec 16) :
    ∃ name number, splitAuthority rest defaultPort = some (name, number) := by
  cases slips with
  | behind whole _ other => exact ⟨_, _, splitAuthority_address plain whole other⟩
  | hostSign bare value =>
    rw [splitAuthority_hostPort plain bare value.colon_not_mem,
      parseU16_iff.mpr (.inr ⟨_, rfl, value⟩)]
    exact ⟨_, _, rfl⟩
  | addressSign whole value =>
    rw [splitAuthority_addressPort plain whole, parseU16_iff.mpr (.inr ⟨_, rfl, value⟩)]
    exact ⟨_, _, rfl⟩

theorem form_or_slips_of_brackets (plain : '@' ∉ '[' :: inner)
    (h : splitAuthority ('[' :: inner) defaultPort = some (name, number)) :
    (∃ kind, Form defaultPort ('[' :: inner) kind name number) ∨ Slips ('[' :: inner) := by
  by_cases closed : ']' ∈ inner
  · obtain ⟨address, tail, rfl, whole⟩ := List.eq_append_cons_of_mem closed
    by_cases colon : tail.head? = some ':'
    · obtain ⟨port, rfl⟩ := List.head?_eq_some_iff.mp colon
      rw [splitAuthority_addressPort plain whole, Option.map_eq_some_iff] at h
      obtain ⟨value, read, same⟩ := h
      obtain ⟨rfl, rfl⟩ := Prod.mk.inj same
      rcases parseU16_iff.mp read with number | ⟨digits, rfl, number⟩
      · exact .inl ⟨_, .addressPort whole number⟩
      · exact .inr (.addressSign whole number)
    · rw [splitAuthority_address plain whole colon] at h
      obtain ⟨rfl, rfl⟩ := Prod.mk.inj (Option.some.inj h)
      by_cases left : tail = []
      · rw [left]
        exact .inl ⟨_, .address whole⟩
      · exact .inr (.behind whole left colon)
  · rw [splitAuthority_open plain closed] at h
    cases h

theorem form_or_slips_of_bare (plain : '@' ∉ rest) (bare : rest.head? ≠ some '[')
    (h : splitAuthority rest defaultPort = some (name, number)) :
    (∃ kind, Form defaultPort rest kind name number) ∨ Slips rest := by
  by_cases colon : ':' ∈ rest
  · obtain ⟨host, port, rfl, last⟩ := exists_last colon
    have bareHost : host.head? ≠ some '[' := by
      intro h
      obtain ⟨more, hmore⟩ := List.head?_eq_some_iff.mp h
      rw [hmore] at bare
      exact bare rfl
    rw [splitAuthority_hostPort plain bareHost last, Option.map_eq_some_iff] at h
    obtain ⟨value, read, same⟩ := h
    obtain ⟨rfl, rfl⟩ := Prod.mk.inj same
    rcases parseU16_iff.mp read with number | ⟨digits, rfl, number⟩
    · exact .inl ⟨_, .hostPort bareHost number⟩
    · exact .inr (.hostSign bareHost number)
  · rw [splitAuthority_host plain bare colon] at h
    obtain ⟨rfl, rfl⟩ := Prod.mk.inj (Option.some.inj h)
    exact .inl ⟨_, .host bare colon⟩

/-- What is split has a form, or slips through without one. -/
theorem form_or_slips (plain : '@' ∉ rest)
    (h : splitAuthority rest defaultPort = some (name, number)) :
    (∃ kind, Form defaultPort rest kind name number) ∨ Slips rest := by
  by_cases bracket : rest.head? = some '['
  · obtain ⟨inner, rfl⟩ := List.head?_eq_some_iff.mp bracket
    exact form_or_slips_of_brackets plain h
  · exact form_or_slips_of_bare plain bracket h

theorem Form.kind_iff (form : Form defaultPort rest kind name number) :
    kind = .address ↔ rest.head? = some '[' := by
  cases form with
  | host bare _ => exact iff_of_false nofun bare
  | hostPort bare _ => exact iff_of_false nofun (head_append_colon bare _)
  | address _ => exact iff_of_true rfl rfl
  | addressPort _ _ => exact iff_of_true rfl rfl

theorem Form.kind_eq {other : NameKind} {name' : Text} {number' : BitVec 16}
    (form : Form defaultPort rest kind name number)
    (again : Form defaultPort rest other name' number') : kind = other := by
  cases kind with
  | address => exact (again.kind_iff.mpr (form.kind_iff.mp rfl)).symm
  | host =>
    cases other with
    | host => rfl
    | address => exact form.kind_iff.mpr (again.kind_iff.mp rfl)

/-! ## When the splits are exact -/

/-- Exactly the forms are split, whatever may stand for a host and for an address, unless what
follows the userinfo slips through or has a form in which no host and no address stands. -/
theorem splitAuthority_iff (IsName : NameKind → Text → Prop) (authority : Text)
    (defaultPort : BitVec 16) :
    (∀ host port, splitAuthority authority defaultPort = some (host, port) ↔
      Writes IsName defaultPort authority host port) ↔
    ∀ rest, AfterUserinfo authority rest → ¬ Slips rest ∧
      ∀ kind host port, Form defaultPort rest kind host port → IsName kind host := by
  constructor
  · intro exact rest after
    have read : ∀ host port, splitAuthority rest defaultPort = some (host, port) →
        ∃ kind, Form defaultPort rest kind host port ∧ IsName kind host := by
      intro host port split
      rw [← splitAuthority_afterUserinfo after, exact] at split
      obtain ⟨other, kind, after', form, named⟩ := split
      rw [after.unique after']
      exact ⟨kind, form, named⟩
    constructor
    · intro slips
      obtain ⟨host, port, split⟩ := slips.split after.1 defaultPort
      obtain ⟨kind, form, -⟩ := read host port split
      exact slips.not_form form
    · intro kind host port form
      obtain ⟨other, form', named⟩ := read host port (form.split after.1)
      rwa [form.kind_eq form']
  · intro clean host port
    constructor
    · intro split
      obtain ⟨rest, after⟩ := exists_afterUserinfo authority
      obtain ⟨noSlip, named⟩ := clean rest after
      rw [splitAuthority_afterUserinfo after] at split
      obtain ⟨kind, form⟩ := (form_or_slips after.1 split).resolve_right noSlip
      exact ⟨rest, kind, after, form, named kind host port form⟩
    · rintro ⟨rest, kind, after, form, -⟩
      rw [splitAuthority_afterUserinfo after]
      exact form.split after.1

/-- A tunnel to `[::1]evil` is opened to the default port of `::1`, and a port may have a plus
sign. -/
theorem splitAuthority_behind_brackets :
    (parseRequest (toUtf8 "CONNECT [::1]evil HTTP/1.1\r\n\r\n".toList)).map
      (fun request => (request.host, request.port)) = some ("::1".toList, 443) ∧
    splitAuthority "[::1]evil".toList 443 = some ("::1".toList, 443) ∧
    splitAuthority "example.com:+80".toList 443 = some ("example.com".toList, 80) ∧
    ∀ IsName host port, ¬ Writes IsName 443 "[::1]evil".toList host port ∧
      ¬ Writes IsName 443 "example.com:+80".toList host port := by
  refine ⟨by decide, by decide, by decide, fun IsName host port => ⟨?_, ?_⟩⟩
  · rintro ⟨rest, kind, after, form, -⟩
    obtain rfl : "[::1]evil".toList = rest :=
      AfterUserinfo.unique ⟨by decide, .inl rfl⟩ after
    have slips : Slips "[::1]evil".toList :=
      @Slips.behind "::1".toList "evil".toList (by decide) (by decide) (by decide)
    exact slips.not_form form
  · rintro ⟨rest, kind, after, form, -⟩
    obtain rfl : "example.com:+80".toList = rest :=
      AfterUserinfo.unique ⟨by decide, .inl rfl⟩ after
    have slips : Slips "example.com:+80".toList :=
      @Slips.hostSign "example.com".toList "80".toList 80 (by decide) ⟨by decide, by decide⟩
    exact slips.not_form form

end Beez.Sandbox
