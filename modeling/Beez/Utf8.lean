import Beez.Text

/-! # UTF-8, written and read back -/

namespace Beez.Text

/-- The bytes of one character. -/
def encodeChar (c : Char) : List Byte := (String.utf8EncodeChar c).map UInt8.toBitVec

@[simp] theorem toUtf8_nil : toUtf8 [] = [] := rfl

@[simp] theorem toUtf8_cons (c : Char) (text : Text) :
    toUtf8 (c :: text) = encodeChar c ++ toUtf8 text := rfl

@[simp] theorem toUtf8_append (front rest : Text) :
    toUtf8 (front ++ rest) = toUtf8 front ++ toUtf8 rest := List.flatMap_append

/-- A character has a number below `0x110000`, and none in the gap of the surrogates. -/
theorem toNat_range (c : Char) : c.toNat < 0xD800 ∨ 0xDFFF < c.toNat ∧ c.toNat < 0x110000 := c.valid

theorem toNat_ofNat {n : Nat} (h : n < 0xD800 ∨ 0xDFFF < n ∧ n < 0x110000) :
    (Char.ofNat n).toNat = n := by
  have valid : Char.ofNat n = Char.ofNatAux n h := dif_pos h
  rw [valid]
  rfl

theorem toNat_byte {n : Nat} (h : n < 256) : (BitVec.ofNat 8 n).toNat = n := Nat.mod_eq_of_lt h

/-- The bytes of a character's number, by its size. -/
theorem encodeChar_eq {c : Char} {n : Nat} (h : c.toNat = n) :
    encodeChar c =
      if n ≤ 0x7F then [BitVec.ofNat 8 n]
      else if n ≤ 0x7FF then [BitVec.ofNat 8 (n / 64 + 0xC0), BitVec.ofNat 8 (n % 64 + 0x80)]
      else if n ≤ 0xFFFF then
        [BitVec.ofNat 8 (n / 4096 + 0xE0), BitVec.ofNat 8 (n / 64 % 64 + 0x80),
          BitVec.ofNat 8 (n % 64 + 0x80)]
      else
        [BitVec.ofNat 8 (n / 262144 + 0xF0), BitVec.ofNat 8 (n / 4096 % 64 + 0x80),
          BitVec.ofNat 8 (n / 64 % 64 + 0x80), BitVec.ofNat 8 (n % 64 + 0x80)] := by
  have hrange := toNat_range c
  subst h
  have two : c.toNat ≤ 0x7FF → c.toNat / 64 % 0x20 = c.toNat / 64 := by omega
  have three : c.toNat ≤ 0xFFFF → c.toNat / 4096 % 0x10 = c.toNat / 4096 := by omega
  have four : c.toNat / 262144 % 0x08 = c.toNat / 262144 := by omega
  show List.map UInt8.toBitVec (if c.toNat ≤ 0x7F then _ else if c.toNat ≤ 0x7FF then _
    else if c.toNat ≤ 0xFFFF then _ else _) = _
  split
  · rfl
  · split
    · rename_i h
      rw [← two h]
      rfl
    · split
      · rename_i h
        rw [← three h]
        rfl
      · rw [← four]
        rfl

theorem encodeChar_ascii {c : Char} (h : c.toNat < 0x80) : encodeChar c = [BitVec.ofNat 8 c.toNat] := by
  rw [encodeChar_eq rfl, if_pos (by omega)]

theorem length_toUtf8 {text : Text} (ascii : ∀ c ∈ text, c.toNat < 0x80) :
    (toUtf8 text).length = text.length := by
  induction text with
  | nil => rfl
  | cons c text ih =>
    rw [List.forall_mem_cons] at ascii
    rw [toUtf8_cons, encodeChar_ascii ascii.1, List.length_append, ih ascii.2,
      List.length_singleton, List.length_cons, Nat.add_comm]

/-- Every byte of a character outside ASCII is outside ASCII. -/
theorem high_of_mem_encodeChar {c : Char} (h : 0x80 ≤ c.toNat) {b : Byte} (hb : b ∈ encodeChar c) :
    0x80 ≤ b.toNat := by
  have hrange := toNat_range c
  rw [encodeChar_eq rfl, if_neg (by omega)] at hb
  split at hb
  · simp only [List.mem_cons, List.not_mem_nil, or_false] at hb
    rcases hb with rfl | rfl <;> rw [toNat_byte (by omega)] <;> omega
  · split at hb
    · simp only [List.mem_cons, List.not_mem_nil, or_false] at hb
      rcases hb with rfl | rfl | rfl <;> rw [toNat_byte (by omega)] <;> omega
    · simp only [List.mem_cons, List.not_mem_nil, or_false] at hb
      rcases hb with rfl | rfl | rfl | rfl <;> rw [toNat_byte (by omega)] <;> omega

/-! ## Decoding -/

theorem decode_ascii {b : Byte} (h : b.toNat < 0x80) (rest : List Byte) :
    decode none (b :: rest) = (decode none rest).map (Char.ofNat b.toNat :: ·) := by
  rw [decode, if_pos h]

theorem decode_lead {b : Byte} {low high more : Nat} (h : 0x80 ≤ b.toNat)
    (tail : utf8Tail b.toNat = some (low, high, more)) (rest : List Byte) :
    decode none (b :: rest) = decode (some (b.toNat % 2 ^ (5 - more), low, high, more)) rest := by
  rw [decode, if_neg (by omega), tail]

theorem decode_last {b : Byte} {value low high : Nat} (h : low ≤ b.toNat ∧ b.toNat ≤ high)
    (rest : List Byte) :
    decode (some (value, low, high, 0)) (b :: rest) =
      (decode none rest).map (Char.ofNat (value * 64 + b.toNat % 64) :: ·) := by
  rw [decode, if_pos h]

theorem decode_more {b : Byte} {value low high more : Nat} (h : low ≤ b.toNat ∧ b.toNat ≤ high)
    (rest : List Byte) :
    decode (some (value, low, high, more + 1)) (b :: rest) =
      decode (some (value * 64 + b.toNat % 64, 0x80, 0xBF, more)) rest := by
  rw [decode, if_pos h]

/-- What a decoded text says of an open sequence: the next byte is in its range. -/
theorem decode_open {value low high more : Nat} {bytes : List Byte} {text : Text}
    (h : decode (some (value, low, high, more)) bytes = some text) :
    ∃ b rest, bytes = b :: rest ∧ low ≤ b.toNat ∧ b.toNat ≤ high := by
  cases bytes with
  | nil => cases h
  | cons b rest =>
    by_cases range : low ≤ b.toNat ∧ b.toNat ≤ high
    · exact ⟨b, rest, rfl, range⟩
    · rw [decode, if_neg range] at h
      cases h

theorem utf8Tail_two {lead : Nat} (h : 0xC2 ≤ lead ∧ lead ≤ 0xDF) :
    utf8Tail lead = some (0x80, 0xBF, 0) := if_pos h

/-- The range of the second of three bytes: not an encoding that two bytes hold, no surrogate. -/
theorem utf8Tail_three {lead : Nat} (h : 0xE0 ≤ lead ∧ lead ≤ 0xEF) :
    utf8Tail lead = some (if lead = 0xE0 then 0xA0 else 0x80, if lead = 0xED then 0x9F else 0xBF, 1) := by
  unfold utf8Tail
  rw [if_neg (by omega)]
  split
  · simp [*]
  · split
    · simp [*]
    · rw [if_pos (by omega)]

/-- The range of the second of four bytes: not an encoding that three bytes hold, below `0x110000`. -/
theorem utf8Tail_four {lead : Nat} (h : 0xF0 ≤ lead ∧ lead ≤ 0xF4) :
    utf8Tail lead = some (if lead = 0xF0 then 0x90 else 0x80, if lead = 0xF4 then 0x8F else 0xBF, 2) := by
  unfold utf8Tail
  rw [if_neg (by omega), if_neg (by omega), if_neg (by omega), if_neg (by omega)]
  split
  · simp [*]
  · split
    · simp [*]
    · simp [*]
      omega

theorem decode_encodeChar (c : Char) (rest : List Byte) :
    decode none (encodeChar c ++ rest) = (decode none rest).map (c :: ·) := by
  have hrange := toNat_range c
  have named : ∀ n, n = c.toNat → Char.ofNat n = c := by
    rintro n rfl
    exact Char.ofNat_toNat c
  rw [encodeChar_eq rfl]
  split
  · have hb : (BitVec.ofNat 8 c.toNat).toNat = c.toNat := toNat_byte (by omega)
    rw [List.singleton_append, decode_ascii (by omega), hb, Char.ofNat_toNat]
  · split
    · have ha : (BitVec.ofNat 8 (c.toNat / 64 + 0xC0)).toNat = c.toNat / 64 + 0xC0 := toNat_byte (by omega)
      have hb : (BitVec.ofNat 8 (c.toNat % 64 + 0x80)).toNat = c.toNat % 64 + 0x80 := toNat_byte (by omega)
      rw [List.cons_append, List.singleton_append, decode_lead (by omega) (utf8Tail_two (by omega)),
        decode_last (by omega), named]
      omega
    · split
      · have ha : (BitVec.ofNat 8 (c.toNat / 4096 + 0xE0)).toNat = c.toNat / 4096 + 0xE0 := toNat_byte (by omega)
        have hb : (BitVec.ofNat 8 (c.toNat / 64 % 64 + 0x80)).toNat = c.toNat / 64 % 64 + 0x80 := toNat_byte (by omega)
        have hc : (BitVec.ofNat 8 (c.toNat % 64 + 0x80)).toNat = c.toNat % 64 + 0x80 := toNat_byte (by omega)
        rw [List.cons_append, List.cons_append, List.singleton_append,
          decode_lead (by omega) (utf8Tail_three (by omega)),
          decode_more (by split <;> split <;> omega), decode_last (by omega), named]
        omega
      · have ha : (BitVec.ofNat 8 (c.toNat / 262144 + 0xF0)).toNat = c.toNat / 262144 + 0xF0 := toNat_byte (by omega)
        have hb : (BitVec.ofNat 8 (c.toNat / 4096 % 64 + 0x80)).toNat = c.toNat / 4096 % 64 + 0x80 := toNat_byte (by omega)
        have hc : (BitVec.ofNat 8 (c.toNat / 64 % 64 + 0x80)).toNat = c.toNat / 64 % 64 + 0x80 := toNat_byte (by omega)
        have hd : (BitVec.ofNat 8 (c.toNat % 64 + 0x80)).toNat = c.toNat % 64 + 0x80 := toNat_byte (by omega)
        rw [List.cons_append, List.cons_append, List.cons_append, List.singleton_append,
          decode_lead (by omega) (utf8Tail_four (by omega)),
          decode_more (by split <;> split <;> omega), decode_more (by omega),
          decode_last (by omega), named]
        omega

theorem fromUtf8_toUtf8 (text : Text) : fromUtf8 (toUtf8 text) = some text := by
  unfold fromUtf8
  induction text with
  | nil => rfl
  | cons c text ih => rw [toUtf8_cons, decode_encodeChar, ih, Option.map_some]

/-- The bytes that an open sequence still takes, with the character they end. -/
theorem decode_rest {value low high more : Nat} {bytes : List Byte} {text : Text}
    (h : decode (some (value, low, high, more)) bytes = some text) :
    ∃ b rest, bytes = b :: rest ∧ low ≤ b.toNat ∧ b.toNat ≤ high ∧
      match more with
      | 0 => ∃ text', decode none rest = some text' ∧
        text = Char.ofNat (value * 64 + b.toNat % 64) :: text'
      | more + 1 => decode (some (value * 64 + b.toNat % 64, 0x80, 0xBF, more)) rest = some text := by
  obtain ⟨b, rest, rfl, range⟩ := decode_open h
  refine ⟨b, rest, rfl, range.1, range.2, ?_⟩
  cases more with
  | zero =>
    rw [decode_last range] at h
    obtain ⟨text', htext, rfl⟩ := Option.map_eq_some_iff.mp h
    exact ⟨text', htext, rfl⟩
  | succ more => rwa [decode_more range] at h

theorem byte_eq {b : Byte} {n : Nat} (h : b.toNat = n) : BitVec.ofNat 8 n = b := by
  rw [← h, BitVec.ofNat_toNat, BitVec.setWidth_eq]

theorem utf8Tail_none {lead : Nat} (h : lead < 0xC2 ∨ 0xF4 < lead) : utf8Tail lead = none := by
  unfold utf8Tail
  rw [if_neg (by omega), if_neg (by omega), if_neg (by omega), if_neg (by omega),
    if_neg (by omega), if_neg (by omega), if_neg (by omega)]

/-- The first character of a decoded text, and its bytes in front of the rest. -/
theorem decode_first {a : Byte} {bytes : List Byte} {text : Text}
    (h : decode none (a :: bytes) = some text) :
    ∃ c text' rest, text = c :: text' ∧ a :: bytes = encodeChar c ++ rest ∧
      decode none rest = some text' := by
  have hlt := a.isLt
  by_cases ascii : a.toNat < 0x80
  · rw [decode_ascii ascii] at h
    obtain ⟨text', htext, rfl⟩ := Option.map_eq_some_iff.mp h
    have number := toNat_ofNat (n := a.toNat) (by omega)
    refine ⟨_, text', bytes, rfl, ?_, htext⟩
    rw [encodeChar_eq number, if_pos (by omega), byte_eq rfl, List.singleton_append]
  by_cases outside : a.toNat < 0xC2 ∨ 0xF4 < a.toNat
  · rw [decode, if_neg ascii, utf8Tail_none outside] at h
    cases h
  by_cases two : a.toNat ≤ 0xDF
  · rw [decode_lead (by omega) (utf8Tail_two (by omega))] at h
    obtain ⟨b, rest, rfl, lowb, highb, text', htext, rfl⟩ := decode_rest h
    have number := toNat_ofNat (n := a.toNat % 2 ^ (5 - 0) * 64 + b.toNat % 64) (by omega)
    refine ⟨_, text', rest, rfl, ?_, htext⟩
    rw [encodeChar_eq number, if_neg (by omega), if_pos (by omega), byte_eq (b := a) (by omega),
      byte_eq (b := b) (by omega)]
    rfl
  by_cases three : a.toNat ≤ 0xEF
  · rw [decode_lead (by omega) (utf8Tail_three (by omega))] at h
    obtain ⟨b, rest, rfl, lowb, highb, h⟩ := decode_rest h
    obtain ⟨c, rest, rfl, lowc, highc, text', htext, rfl⟩ := decode_rest h
    have notLong : a.toNat = 0xE0 → 0xA0 ≤ b.toNat := fun e => by rwa [if_pos e] at lowb
    have noSurrogate : a.toNat = 0xED → b.toNat ≤ 0x9F := fun e => by rwa [if_pos e] at highb
    have lowb' : 0x80 ≤ b.toNat := by split at lowb <;> omega
    have highb' : b.toNat ≤ 0xBF := by split at highb <;> omega
    have number := toNat_ofNat
      (n := (a.toNat % 2 ^ (5 - 1) * 64 + b.toNat % 64) * 64 + c.toNat % 64) (by omega)
    refine ⟨_, text', rest, rfl, ?_, htext⟩
    rw [encodeChar_eq number, if_neg (by omega), if_neg (by omega), if_pos (by omega),
      byte_eq (b := a) (by omega), byte_eq (b := b) (by omega), byte_eq (b := c) (by omega)]
    rfl
  · rw [decode_lead (by omega) (utf8Tail_four (by omega))] at h
    obtain ⟨b, rest, rfl, lowb, highb, h⟩ := decode_rest h
    obtain ⟨c, rest, rfl, lowc, highc, h⟩ := decode_rest h
    obtain ⟨d, rest, rfl, lowd, highd, text', htext, rfl⟩ := decode_rest h
    have notLong : a.toNat = 0xF0 → 0x90 ≤ b.toNat := fun e => by rwa [if_pos e] at lowb
    have bounded : a.toNat = 0xF4 → b.toNat ≤ 0x8F := fun e => by rwa [if_pos e] at highb
    have lowb' : 0x80 ≤ b.toNat := by split at lowb <;> omega
    have highb' : b.toNat ≤ 0xBF := by split at highb <;> omega
    have number := toNat_ofNat (n := ((a.toNat % 2 ^ (5 - 2) * 64 + b.toNat % 64) * 64 +
      c.toNat % 64) * 64 + d.toNat % 64) (by omega)
    refine ⟨_, text', rest, rfl, ?_, htext⟩
    rw [encodeChar_eq number, if_neg (by omega), if_neg (by omega), if_neg (by omega),
      byte_eq (b := a) (by omega), byte_eq (b := b) (by omega), byte_eq (b := c) (by omega),
      byte_eq (b := d) (by omega)]
    rfl

theorem encodeChar_ne_nil (c : Char) : encodeChar c ≠ [] := by
  rw [encodeChar_eq rfl]
  split
  · simp
  · split
    · simp
    · split <;> simp

theorem toUtf8_fromUtf8 {bytes : List Byte} {text : Text} (h : fromUtf8 bytes = some text) :
    toUtf8 text = bytes := by
  unfold fromUtf8 at h
  induction hn : bytes.length using Nat.strong_induction_on generalizing bytes text with
  | _ n ih
  cases bytes with
  | nil =>
    cases h
    rfl
  | cons a bytes =>
    obtain ⟨c, text', rest, rfl, heq, htext⟩ := decode_first h
    have some := List.length_pos_iff.mpr (encodeChar_ne_nil c)
    rw [heq, List.length_append] at hn
    rw [toUtf8_cons, ih _ (by omega) htext rfl, heq]

/-! ## ASCII marks in the bytes -/

theorem toUtf8_eq_nil {text : Text} (h : toUtf8 text = []) : text = [] := by
  cases text with
  | nil => rfl
  | cons c text => exact absurd (List.append_eq_nil_iff.mp h).1 (encodeChar_ne_nil c)

/-- An ASCII byte in the bytes of a text is a character of the text. -/
theorem toUtf8_split {c : Char} (ascii : c.toNat < 0x80) {text : Text} {front rest : List Byte}
    (h : toUtf8 text = front ++ (encodeChar c ++ rest)) :
    ∃ before after, text = before ++ c :: after ∧ toUtf8 before = front ∧ toUtf8 after = rest := by
  rw [encodeChar_ascii ascii, List.singleton_append] at h
  induction text generalizing front with
  | nil => simp at h
  | cons d text ih =>
    rw [toUtf8_cons] at h
    rcases List.append_eq_append_iff.mp h with ⟨more, rfl, htext⟩ | ⟨more, hd, hrest⟩
    · obtain ⟨before, after, rfl, hbefore, hafter⟩ := ih htext
      exact ⟨d :: before, after, rfl, by rw [toUtf8_cons, hbefore], hafter⟩
    · cases more with
      | nil =>
        have hrest' : toUtf8 text = [] ++ (BitVec.ofNat 8 c.toNat :: rest) := hrest.symm
        obtain ⟨before, after, rfl, hbefore, hafter⟩ := ih hrest'
        refine ⟨d :: before, after, rfl, ?_, hafter⟩
        rw [toUtf8_cons, hbefore, hd, List.append_nil, List.append_nil]
      | cons b more =>
        rw [List.cons_append, List.cons.injEq] at hrest
        obtain ⟨rfl, rfl⟩ := hrest
        have small : (BitVec.ofNat 8 c.toNat).toNat < 0x80 := by rwa [toNat_byte (by omega)]
        have low : d.toNat < 0x80 := by
          by_contra high
          have := high_of_mem_encodeChar (c := d) (by omega)
            (hd ▸ List.mem_append_right _ List.mem_cons_self)
          omega
        rw [encodeChar_ascii low, List.singleton_eq_append_iff] at hd
        simp only [reduceCtorEq, and_false, or_false, List.cons.injEq] at hd
        obtain ⟨rfl, hdc, rfl⟩ := hd
        have same : d = c := by
          have := congrArg BitVec.toNat hdc
          rw [toNat_byte (by omega), toNat_byte (by omega)] at this
          rw [← Char.ofNat_toNat d, ← Char.ofNat_toNat c, this]
        exact ⟨[], text, by rw [same]; rfl, rfl, rfl⟩

theorem toUtf8_strip {mark : Text} (ascii : ∀ c ∈ mark, c.toNat < 0x80) {text : Text}
    {rest : List Byte} (h : toUtf8 text = toUtf8 mark ++ rest) :
    ∃ after, text = mark ++ after ∧ toUtf8 after = rest := by
  induction mark generalizing text with
  | nil => exact ⟨text, rfl, h⟩
  | cons c mark ih =>
    rw [List.forall_mem_cons] at ascii
    rw [toUtf8_cons, List.append_assoc] at h
    have first : toUtf8 text = [] ++ (encodeChar c ++ (toUtf8 mark ++ rest)) := h
    obtain ⟨before, after, rfl, hbefore, hafter⟩ := toUtf8_split ascii.1 first
    obtain rfl := toUtf8_eq_nil hbefore
    obtain ⟨after, rfl, hrest⟩ := ih ascii.2 hafter
    exact ⟨after, rfl, hrest⟩

theorem toUtf8_split_mark {c : Char} {mark : Text} (ascii : ∀ d ∈ c :: mark, d.toNat < 0x80)
    {text : Text} {front rest : List Byte} (h : toUtf8 text = front ++ (toUtf8 (c :: mark) ++ rest)) :
    ∃ before after, text = before ++ (c :: mark ++ after) ∧ toUtf8 before = front ∧
      toUtf8 after = rest := by
  rw [toUtf8_cons, List.append_assoc] at h
  rw [List.forall_mem_cons] at ascii
  obtain ⟨before, after, rfl, hbefore, hafter⟩ := toUtf8_split ascii.1 h
  obtain ⟨after, rfl, hrest⟩ := toUtf8_strip ascii.2 hafter
  exact ⟨before, after, rfl, hbefore, hrest⟩

end Beez.Text
