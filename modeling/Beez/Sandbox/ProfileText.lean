import Beez.Lib.SExpr
import Beez.Sandbox.Seatbelt

/-! # The Seatbelt profile reads back

No path can close its string, and no string can add a rule.
-/

open Beez.Lib

namespace Beez.Sandbox

/-! ## The expression of a rule -/

/-- An address of the profile needs no escape. -/
def Filter.Plain : Filter → Prop
  | localIp address | remoteIp address => ∀ c ∈ address, c ≠ '"' ∧ c ≠ '\\'
  | _ => True

def Filter.expr : Filter → SExpr
  | subpath path => .list [.atom "subpath".toList, .string path.display]
  | literal path => .list [.atom "literal".toList, .string path.display]
  | terminals => .list [.atom "regex".toList, .raw "^/dev/ttys[0-9]+$".toList]
  | descriptors => .list [.atom "regex".toList, .raw "^/dev/fd/[0-9]+$".toList]
  | sameSandbox => .list [.atom "target".toList, .atom "same-sandbox".toList]
  | localIp address => .list [.atom "local".toList, .atom "ip".toList, .string address]
  | remoteIp address => .list [.atom "remote".toList, .atom "ip".toList, .string address]

def Rule.expr (rule : Rule) : SExpr :=
  .list (.atom (if rule.allow then "allow".toList else "deny".toList) ::
    .atom rule.action.text.toList :: rule.filters.map Filter.expr)

def versionExpr : SExpr := .list [.atom "version".toList, .atom "1".toList]

/-! ## The text of a rule is its expression -/

theorem escape_plain {text : Text} (plain : ∀ c ∈ text, c ≠ '"' ∧ c ≠ '\\') :
    SExpr.escape text = text := by
  unfold SExpr.escape
  induction text with
  | nil => rfl
  | cons c text ih =>
    rw [List.forall_mem_cons] at plain
    rw [List.flatMap_cons, ih plain.2, if_neg (by simpa using plain.1), List.singleton_append]

theorem quote_eq (path : Path) : quote path = SExpr.write (.string path.display) := rfl

theorem write_pair (name : Text) (item : SExpr) :
    SExpr.write (.list [.atom name, item]) = '(' :: (name ++ ' ' :: SExpr.write item) ++ [')'] := by
  simp [SExpr.write, SExpr.writeItems]

theorem write_triple (name word : Text) (item : SExpr) :
    SExpr.write (.list [.atom name, .atom word, item]) =
      '(' :: (name ++ ' ' :: word ++ ' ' :: SExpr.write item) ++ [')'] := by
  simp [SExpr.write, SExpr.writeItems]

theorem write_address {address : Text} (plain : ∀ c ∈ address, c ≠ '"' ∧ c ≠ '\\') :
    SExpr.write (.string address) = '"' :: address ++ ['"'] := by
  rw [SExpr.write, escape_plain plain]

theorem Filter.write_expr {filter : Filter} (plain : filter.Plain) :
    SExpr.write filter.expr = '(' :: filter.text ++ [')'] := by
  cases filter with
  | subpath path =>
    change SExpr.write (.list [.atom "subpath".toList, .string path.display]) =
      '(' :: ("subpath ".toList ++ quote path) ++ [')']
    rw [write_pair, quote_eq]
    rfl
  | literal path =>
    change SExpr.write (.list [.atom "literal".toList, .string path.display]) =
      '(' :: ("literal ".toList ++ quote path) ++ [')']
    rw [write_pair, quote_eq]
    rfl
  | terminals | descriptors | sameSandbox => rfl
  | localIp address =>
    change SExpr.write (.list [.atom "local".toList, .atom "ip".toList, .string address]) =
      '(' :: ("local ip \"".toList ++ address ++ ['"']) ++ [')']
    rw [write_triple, write_address plain]
    rfl
  | remoteIp address =>
    change SExpr.write (.list [.atom "remote".toList, .atom "ip".toList, .string address]) =
      '(' :: ("remote ip \"".toList ++ address ++ ['"']) ++ [')']
    rw [write_triple, write_address plain]
    rfl

theorem Rule.text_eq {rule : Rule} (plain : ∀ filter ∈ rule.filters, filter.Plain) :
    rule.text = SExpr.write rule.expr ++ ['\n'] := by
  have filters : ∀ filters : List Filter, (∀ filter ∈ filters, filter.Plain) →
      filters.flatMap (fun filter => " (".toList ++ filter.text ++ ")".toList) =
        SExpr.writeItems (filters.map Filter.expr) := by
    intro filters plain
    induction filters with
    | nil => rfl
    | cons filter filters ih =>
      rw [List.forall_mem_cons] at plain
      rw [List.flatMap_cons, ih plain.2, List.map_cons, SExpr.writeItems, Filter.write_expr plain.1]
      rfl
  unfold Rule.text Rule.expr
  rw [filters rule.filters plain, SExpr.write, SExpr.writeItems, SExpr.writeItems, SExpr.write,
    SExpr.write]
  cases rule.allow <;> simp

/-! ## The rules are tidy -/

theorem tidy_pair {first second : SExpr} (h : first.Tidy) (h' : second.Tidy) :
    (SExpr.list [first, second]).Tidy :=
  .list (by simp [h, h'])

theorem tidy_triple {first second third : SExpr} (h : first.Tidy) (h' : second.Tidy)
    (h'' : third.Tidy) : (SExpr.list [first, second, third]).Tidy :=
  .list (by simp [h, h', h''])

theorem Filter.tidy (filter : Filter) : filter.expr.Tidy := by
  cases filter with
  | subpath path => exact tidy_pair (.atom (by decide)) (.string _)
  | literal path => exact tidy_pair (.atom (by decide)) (.string _)
  | terminals => exact tidy_pair (.atom (by decide)) (.raw (by decide))
  | descriptors => exact tidy_pair (.atom (by decide)) (.raw (by decide))
  | sameSandbox => exact tidy_pair (.atom (by decide)) (.atom (by decide))
  | localIp address => exact tidy_triple (.atom (by decide)) (.atom (by decide)) (.string _)
  | remoteIp address => exact tidy_triple (.atom (by decide)) (.atom (by decide)) (.string _)

theorem Rule.tidy (rule : Rule) : rule.expr.Tidy := by
  have verb : (if rule.allow then SExpr.atom "allow".toList else SExpr.atom "deny".toList).Tidy := by
    cases rule.allow with
    | true => exact .atom (by decide)
    | false => exact .atom (by decide)
  have action : (SExpr.atom rule.action.text.toList).Tidy := by
    cases rule.action <;> exact .atom (by decide)
  refine .list ?_
  rw [List.forall_mem_cons, List.forall_mem_cons, List.forall_mem_map]
  refine ⟨?_, action, fun filter _ => filter.tidy⟩
  cases hallow : rule.allow with
  | true => simpa [hallow] using verb
  | false => simpa [hallow] using verb

/-! ## The profile -/

theorem plain_localhost {rest : Text} (plain : ∀ c ∈ rest, c ≠ '"' ∧ c ≠ '\\') :
    ∀ c ∈ "localhost:".toList ++ rest, c ≠ '"' ∧ c ≠ '\\' := by
  have front : "localhost:".toList.all (fun c => c != '"' && c != '\\') = true := by decide
  rw [List.forall_mem_append]
  refine ⟨fun c mem => ?_, plain⟩
  simpa using List.all_eq_true.mp front c mem

theorem plain_decimal (n : Nat) : ∀ c ∈ decimal n, c ≠ '"' ∧ c ≠ '\\' := by
  intro c mem
  constructor
  · rintro rfl
    exact not_mem_decimal (by decide) n mem
  · rintro rfl
    exact not_mem_decimal (by decide) n mem

theorem writeRule_plain (allow : Bool) (action : Action) (filter : Path → Filter)
    (plain : ∀ path, (filter path).Plain) (paths : List Path) :
    ∀ rule ∈ writeRule allow action filter paths, ∀ filter ∈ rule.filters, filter.Plain := by
  intro rule mem
  unfold writeRule at mem
  split at mem
  · cases mem
  · rw [List.mem_singleton.mp mem]
    exact List.forall_mem_map.mpr fun path _ => plain path

theorem profileRules_plain (tree : Tree) (resolved : ResolvedSandbox) (httpPort socksPort : Nat) :
    ∀ rule ∈ profileRules tree resolved httpPort socksPort, ∀ filter ∈ rule.filters,
      filter.Plain := by
  have first : ∀ rule ∈ firstRules, ∀ filter ∈ rule.filters, filter.Plain := by
    have few : ∀ rule ∈ firstRules, rule.filters = [] ∨ rule.filters = [.sameSandbox] := by decide
    intro rule mem filter hfilter
    rcases few rule mem with none | one
    · rw [none] at hfilter
      cases hfilter
    · rw [one] at hfilter
      rw [List.mem_singleton.mp hfilter]
      trivial
  have device : ∀ filter ∈ deviceRule.filters, filter.Plain := by
    simp [deviceRule, Filter.Plain]
  have anyPort : ∀ c ∈ "localhost:*".toList, c ≠ '"' ∧ c ≠ '\\' :=
    plain_localhost (List.forall_mem_singleton.mpr (by decide))
  have port : ∀ n, ∀ c ∈ localhostPort n, c ≠ '"' ∧ c ≠ '\\' :=
    fun n => plain_localhost (plain_decimal n)
  have last : ∀ rule ∈ lastRules tree resolved httpPort socksPort, ∀ filter ∈ rule.filters,
      filter.Plain := by
    have bind : Filter.Plain (.localIp "localhost:*".toList) := anyPort
    have everywhere : Filter.Plain (.remoteIp "localhost:*".toList) := anyPort
    have relays : ∀ n, Filter.Plain (.remoteIp (localhostPort n)) := port
    have programs : ∀ path : Path,
        (if tree.isDir path then Filter.subpath path else .literal path).Plain := by
      intro path
      split <;> trivial
    unfold lastRules
    simp only [List.forall_mem_append, List.forall_mem_cons, List.forall_mem_map]
    have rest := List.forall_mem_nil Filter.Plain
    refine ⟨⟨⟨⟨bind, rest⟩, ⟨bind, rest⟩, ⟨relays httpPort, relays socksPort, rest⟩,
      List.forall_mem_nil _⟩, ?_⟩, fun path _ => programs path, List.forall_mem_nil _⟩
    split
    · simp only [List.forall_mem_singleton]
      exact everywhere
    · exact List.forall_mem_nil _
  unfold profileRules
  simp only [List.forall_mem_append, List.forall_mem_singleton]
  refine ⟨⟨⟨⟨⟨⟨⟨first, ?_⟩, List.forall_mem_nil _⟩, ?_⟩, device⟩, ?_⟩, ?_⟩, last⟩
  · exact writeRule_plain _ _ .subpath (fun _ => trivial) _
  · exact writeRule_plain _ _ .subpath (fun _ => trivial) _
  · exact writeRule_plain _ _ .subpath (fun _ => trivial) _
  · exact writeRule_plain _ _ .literal (fun _ => trivial) _

/-- Read as expressions, the profile is its version and its rules in order, and every path in it is
the path that it was written for. -/
theorem read_profile (tree : Tree) (resolved : ResolvedSandbox) (httpPort socksPort : Nat) :
    SExpr.read (profile tree resolved httpPort socksPort) =
      some (versionExpr :: (profileRules tree resolved httpPort socksPort).map Rule.expr) := by
  have version : SExpr.write versionExpr ++ ['\n'] = "(version 1)\n".toList := rfl
  have lines : profile tree resolved httpPort socksPort = SExpr.writeLines
      (versionExpr :: (profileRules tree resolved httpPort socksPort).map Rule.expr) := by
    change "(version 1)\n".toList ++
      (profileRules tree resolved httpPort socksPort).flatMap Rule.text = _
    rw [SExpr.writeLines, List.flatMap_cons, version, List.flatMap_map]
    refine congrArg ("(version 1)\n".toList ++ ·) (List.flatMap_congr fun rule mem => ?_)
    exact Rule.text_eq (profileRules_plain tree resolved httpPort socksPort rule mem)
  rw [lines]
  refine SExpr.read_writeLines ?_
  rw [List.forall_mem_cons, List.forall_mem_map]
  exact ⟨tidy_pair (.atom (by decide)) (.atom (by decide)), fun rule _ => rule.tidy⟩

end Beez.Sandbox
