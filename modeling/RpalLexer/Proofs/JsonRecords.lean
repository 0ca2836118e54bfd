import Mathlib
import RpalLexer.Encoding.Utf16
import RpalLexer.Proofs.CharBytes
import RpalLexer.Proofs.TextListing

/-!
# JSON records

A reader of JSON objects whose values are texts and whole numbers: the inside of a string is a
sequence of UTF-16 units, written as characters and escapes, and every unit has to belong to a
character; blanks may stand between the items of a record. Main statement: the reader gives back
the kind, text and line of the token that a record was written for (`readRecord_jsonRecord`).
-/
namespace RpalLexer
namespace Json

open Text

/-! ## The reader -/

inductive Value where
  | string (text : String)
  | number (n : Int)
  deriving DecidableEq

abbrev Record := List (String × Value)

inductive Item where
  | openBrace
  | closeBrace
  | colon
  | comma
  | value (v : Value)
  deriving DecidableEq

def isBlank (c : Char) : Bool := c = ' ' || c = '\t' || c = '\n' || c = '\r'

def punctuation? : Char → Option Item
  | '\x7b' => some .openBrace
  | '\x7d' => some .closeBrace
  | ':' => some .colon
  | ',' => some .comma
  | _ => none

def escaped? : Char → Option Char
  | '\x22' => some '\x22'
  | '\\' => some '\\'
  | '/' => some '/'
  | 'b' => some '\x08'
  | 'f' => some '\x0c'
  | 'n' => some '\n'
  | 'r' => some '\r'
  | 't' => some '\t'
  | _ => none

def hexDigit? (c : Char) : Option Nat :=
  if '0' ≤ c ∧ c ≤ '9' then some (c.toNat - 48)
  else if 'a' ≤ c ∧ c ≤ 'f' then some (c.toNat - 87)
  else if 'A' ≤ c ∧ c ≤ 'F' then some (c.toNat - 55)
  else none

def unit? (a b c d : Char) : Option Nat :=
  match hexDigit? a, hexDigit? b, hexDigit? c, hexDigit? d with
  | some w, some x, some y, some z => some (((w * 16 + x) * 16 + y) * 16 + z)
  | _, _, _, _ => none

/-- The units of a string up to its closing quote, and what follows the quote. -/
def readUnits : List Char → Option (List Nat × List Char)
  | [] => none
  | c :: cs =>
    if c = '\x22' then some ([], cs)
    else if c = '\\' then
      match cs with
      | 'u' :: a :: b :: d :: e :: rest =>
        match unit? a b d e with
        | none => none
        | some u => (readUnits rest).map fun p => (u :: p.1, p.2)
      | e :: rest =>
        match escaped? e with
        | none => none
        | some d => (readUnits rest).map fun p => (utf16Units d ++ p.1, p.2)
      | [] => none
    else if c < ' ' then none
    else (readUnits cs).map fun p => (utf16Units c ++ p.1, p.2)

/-- The characters of UTF-16 units, unless a surrogate has no partner. -/
def charsOfUnits? : List Nat → Option (List Char)
  | [] => some []
  | u :: us =>
    if Utf16.isLow u then none
    else if !Utf16.isHigh u then (charsOfUnits? us).map (Char.ofNat u :: ·)
    else
      match us with
      | v :: vs =>
        if Utf16.isLow v then (charsOfUnits? vs).map (Utf16.pairChar u v :: ·) else none
      | [] => none

def natural? (digits : List Char) : Option Nat :=
  if digits ≠ [] ∧ digits.all Char.isDigit ∧ (digits.head? = some '0' → digits = ['0']) then
    some (Nat.ofDigitChars 10 digits 0)
  else none

def integer? : List Char → Option Int
  | '-' :: digits => (natural? digits).map fun n : Nat => -(n : Int)
  | digits => (natural? digits).map fun n : Nat => (n : Int)

/-- A character that a number goes on with, fractions and powers of ten included. -/
def isNumeral (c : Char) : Bool := c.isDigit || ['+', '-', '.', 'E', 'e'].contains c

theorem length_readUnits {cs : List Char} {p : List Nat × List Char}
    (h : readUnits cs = some p) : p.2.length < cs.length := by
  fun_induction readUnits cs generalizing p with
  | case1 => cases h
  | case2 cs =>
    cases h
    exact Nat.lt_succ_self _
  | case3 a b d e cs hu => cases h
  | case4 a b d e cs u hu hc ih =>
    obtain ⟨q, hq, rfl⟩ := Option.map_eq_some_iff.1 h
    have := ih hq
    simp only [List.length_cons]
    omega
  | case5 e cs hn hd => cases h
  | case6 e cs hn d hd hc ih =>
    obtain ⟨q, hq, rfl⟩ := Option.map_eq_some_iff.1 h
    have := ih hq
    simp only [List.length_cons]
    omega
  | case7 => cases h
  | case8 c cs => cases h
  | case9 c cs hn hb hc ih =>
    obtain ⟨q, hq, rfl⟩ := Option.map_eq_some_iff.1 h
    have := ih hq
    simp only [List.length_cons]
    omega

def items (cs : List Char) : Option (List Item) :=
  match cs with
  | [] => some []
  | c :: cs =>
    if isBlank c then items cs
    else if c = '\x22' then
      match _h : readUnits cs with
      | none => none
      | some (units, rest) =>
        match charsOfUnits? units with
        | none => none
        | some chars => (items rest).map (.value (.string (String.ofList chars)) :: ·)
    else
      match punctuation? c with
      | some item => (items cs).map (item :: ·)
      | none =>
        match integer? (c :: cs.takeWhile isNumeral) with
        | none => none
        | some n => (items (cs.dropWhile isNumeral)).map (.value (.number n) :: ·)
termination_by cs.length
decreasing_by
  · simp
  · exact Nat.lt_succ_of_lt (length_readUnits _h)
  · simp
  · exact Nat.lt_succ_of_le (List.dropWhile_sublist isNumeral).length_le

def members : List Item → Option Record
  | .value (.string name) :: .colon :: .value v :: rest =>
    match rest with
    | [.closeBrace] => some [(name, v)]
    | .comma :: rest => (members rest).map ((name, v) :: ·)
    | _ => none
  | _ => none

def readRecord (cs : List Char) : Option Record :=
  match items cs with
  | some [.openBrace, .closeBrace] => some []
  | some (.openBrace :: rest) => members rest
  | _ => none

/-! ## Strings -/

theorem hexDigit?_digitChar {d : Nat} (h : d < 16) : hexDigit? (Nat.digitChar d) = some d := by
  have hall : ∀ d < 16, hexDigit? (Nat.digitChar d) = some d := by decide
  exact hall d h

theorem hexDigits_one {n : Nat} (h : n < 16) : hexDigits 1 n = [Nat.digitChar n] := by
  rw [hexDigits, Nat.toDigits_of_lt_base h]
  rfl

theorem hexDigits_succ_succ (width n : Nat) :
    hexDigits (width + 2) n = hexDigits (width + 1) (n / 16) ++ [Nat.digitChar (n % 16)] := by
  by_cases h : n < 16
  · rw [hexDigits, hexDigits, Nat.toDigits_of_lt_base h, Nat.div_eq_of_lt h, Nat.mod_eq_of_lt h,
      padLeft, padLeft, Nat.toDigits_of_lt_base (by omega)]
    simp [List.replicate_succ', Nat.digitChar]
  · rw [hexDigits, hexDigits, Nat.toDigits_of_base_le (by omega) (by omega), padLeft, padLeft]
    simp

theorem readUnits_escape {u : Nat} (hu : u < 0x10000) (cs : List Char) :
    readUnits ('\\' :: 'u' :: hexDigits 4 u ++ cs) =
      (readUnits cs).map fun p => (u :: p.1, p.2) := by
  have hd : unit? (Nat.digitChar (u / 16 / 16 / 16)) (Nat.digitChar (u / 16 / 16 % 16))
      (Nat.digitChar (u / 16 % 16)) (Nat.digitChar (u % 16)) = some u := by
    rw [unit?, hexDigit?_digitChar (by omega), hexDigit?_digitChar (by omega),
      hexDigit?_digitChar (by omega), hexDigit?_digitChar (by omega)]
    simp only [Option.some.injEq]
    omega
  rw [hexDigits_succ_succ, hexDigits_succ_succ, hexDigits_succ_succ, hexDigits_one (by omega)]
  simp [readUnits, hd]

theorem lt_of_mem_utf16Units {c : Char} {u : Nat} (h : u ∈ utf16Units c) : u < 0x10000 := by
  have hv := toNat_valid c
  rw [utf16Units] at h
  split at h
  · rw [List.mem_singleton] at h
    omega
  · simp only [List.mem_cons, List.not_mem_nil, or_false] at h
    omega

theorem readUnits_escapes {us : List Nat} (hu : ∀ u ∈ us, u < 0x10000) (cs : List Char) :
    readUnits ((us.flatMap fun u => '\\' :: 'u' :: hexDigits 4 u) ++ cs) =
      (readUnits cs).map fun p => (us ++ p.1, p.2) := by
  induction us with
  | nil => simp
  | cons u us ih =>
    rw [List.forall_mem_cons] at hu
    rw [List.flatMap_cons, List.append_assoc, readUnits_escape hu.1, ih hu.2, Option.map_map]
    rfl

theorem readUnits_jsonChar (c : Char) (cs : List Char) :
    readUnits (jsonChar c ++ cs) = (readUnits cs).map fun p => (utf16Units c ++ p.1, p.2) := by
  rw [jsonChar]
  split_ifs with hquote hbackslash hn hr ht hb hf hplain
  · simp [hquote, readUnits, escaped?]
  · simp [hbackslash, readUnits, escaped?]
  · simp [hn, readUnits, escaped?]
  · simp [hr, readUnits, escaped?]
  · simp [ht, readUnits, escaped?]
  · simp [hb, readUnits, escaped?]
  · simp [hf, readUnits, escaped?]
  · have hc : ¬c < ' ' := by
      rw [Bool.and_eq_true, decide_eq_true_eq] at hplain
      exact Char.not_lt.2 hplain.1
    rw [List.singleton_append, readUnits.eq_def]
    simp only [if_neg hquote, if_neg hbackslash, if_neg hc]
  · exact readUnits_escapes (fun _ => lt_of_mem_utf16Units) cs

theorem readUnits_text (text rest : List Char) :
    readUnits (text.flatMap jsonChar ++ '\x22' :: rest) = some (text.flatMap utf16Units, rest) := by
  induction text with
  | nil =>
    rw [List.flatMap_nil, List.nil_append, readUnits.eq_def]
    rfl
  | cons c text ih =>
    rw [List.flatMap_cons, List.append_assoc, readUnits_jsonChar, ih]
    rfl

theorem charsOfUnits?_append (c : Char) (us : List Nat) :
    charsOfUnits? (utf16Units c ++ us) = (charsOfUnits? us).map (c :: ·) := by
  have hv := toNat_valid c
  rw [utf16Units]
  split
  · have hlow := Utf16.not_isLow (n := c.toNat) (by omega)
    have hhigh := Utf16.not_isHigh (n := c.toNat) (by omega)
    rw [List.singleton_append, charsOfUnits?.eq_def]
    simp [hlow, hhigh]
  -- Above the first plane the units are a high and a low surrogate, which belong together.
  · have hlow := Utf16.not_isLow (n := 0xD800 + (c.toNat - 0x10000) / 0x400) (by omega)
    have hhigh := Utf16.isHigh_of (n := 0xD800 + (c.toNat - 0x10000) / 0x400) (by omega) (by omega)
    have hlow' := Utf16.isLow_of (n := 0xDC00 + (c.toNat - 0x10000) % 0x400) (by omega) (by omega)
    have hc : 0x10000 + (0xD800 + (c.toNat - 0x10000) / 0x400 - 0xD800) * 0x400 +
        (0xDC00 + (c.toNat - 0x10000) % 0x400 - 0xDC00) = c.toNat := by omega
    rw [List.cons_append, List.singleton_append, charsOfUnits?.eq_def]
    simp only [hlow, hhigh, hlow', Utf16.pairChar, hc, Char.ofNat_toNat]
    rfl

theorem charsOfUnits?_text (text : List Char) :
    charsOfUnits? (text.flatMap utf16Units) = some text := by
  induction text with
  | nil => rfl
  | cons c text ih => rw [List.flatMap_cons, charsOfUnits?_append, ih]; rfl

/-! ## Numbers -/

theorem eq_zero_of_head?_toDigits {n : Nat} (h : (Nat.toDigits 10 n).head? = some '0') :
    n = 0 := by
  induction n using Nat.strong_induction_on with
  | h n ih =>
    by_cases hn : n < 10
    · rw [Nat.toDigits_of_lt_base hn, List.head?_cons] at h
      have hall : ∀ d < 10, some (Nat.digitChar d) = some '0' → d = 0 := by decide
      exact hall n hn h
    · rw [Nat.toDigits_of_base_le (by decide) (Nat.not_lt.1 hn),
        List.head?_append_of_ne_nil _ Nat.toDigits_ne_nil] at h
      have := ih (n / 10) (by omega) h
      omega

theorem natural?_toDigits (n : Nat) : natural? (Nat.toDigits 10 n) = some n := by
  have hall : (Nat.toDigits 10 n).all Char.isDigit = true := by
    rw [List.all_eq_true]
    exact fun c hc => Nat.isDigit_of_mem_toDigits (by decide) (by decide) hc
  have hzero (h : (Nat.toDigits 10 n).head? = some '0') : Nat.toDigits 10 n = ['0'] := by
    rw [eq_zero_of_head?_toDigits h]
    rfl
  rw [natural?, if_pos ⟨Nat.toDigits_ne_nil, hall, hzero⟩, Nat.ofDigitChars_ten_toDigits]

theorem integer?_of_head? {digits : List Char} (h : digits.head? ≠ some '-') :
    integer? digits = (natural? digits).map fun n : Nat => (n : Int) := by
  rw [integer?.eq_def]
  split
  · exact absurd rfl h
  · rfl

theorem integer?_toString (n : Int) : integer? (toString n).toList = some n := by
  have hr : toString n = n.repr := rfl
  rw [hr, Int.repr_eq_if]
  split
  · rename_i h
    rw [Nat.repr_eq_ofList_toDigits, String.toList_ofList, integer?_of_head?, natural?_toDigits]
    · simp [Int.toNat_of_nonneg h]
    · intro hm
      have hd := Nat.isDigit_of_mem_toDigits (by decide) (by decide) (List.mem_of_head? hm)
      exact absurd hd (by decide)
  · rename_i h
    have hd : (-n).toNat.repr.toList = Nat.toDigits 10 (-n).toNat := by
      rw [Nat.repr_eq_ofList_toDigits, String.toList_ofList]
    rw [String.toList_append, hd]
    change integer? ('-' :: Nat.toDigits 10 (-n).toNat) = some n
    rw [integer?, natural?_toDigits, Option.map_some, Option.some.injEq]
    omega

/-! ## Items -/

section Items

variable {c : Char} {cs rest : List Char}

theorem items_blank (h : isBlank c = true) : items (c :: cs) = items cs := by
  rw [items.eq_def]
  simp only [if_pos h]

theorem items_punctuation {item : Item} (h : punctuation? c = some item) :
    items (c :: cs) = (items cs).map (item :: ·) := by
  have hb : isBlank c = false ∧ c ≠ '\x22' := by
    rw [punctuation?.eq_def] at h
    split at h
    · exact ⟨by decide, by decide⟩
    · exact ⟨by decide, by decide⟩
    · exact ⟨by decide, by decide⟩
    · exact ⟨by decide, by decide⟩
    · cases h
  rw [items.eq_def]
  simp only [hb.1, hb.2, h]
  rfl

theorem items_quote {units : List Nat} {chars : List Char} (h : readUnits cs = some (units, rest))
    (hc : charsOfUnits? units = some chars) :
    items ('\x22' :: cs) = (items rest).map (.value (.string (String.ofList chars)) :: ·) := by
  have hb : isBlank '\x22' = false := by decide
  rw [items.eq_def]
  simp only [hb, Bool.false_eq_true, if_false, if_true]
  split
  · rename_i hn
    cases h.symm.trans hn
  · rename_i units' rest' hs
    cases h.symm.trans hs
    rw [hc]

theorem items_jsonString (text : String) (rest : List Char) :
    items ((jsonString text).toList ++ rest) =
      (items rest).map (.value (.string text) :: ·) := by
  have hs : (jsonString text).toList ++ rest =
      '\x22' :: (text.toList.flatMap jsonChar ++ '\x22' :: rest) := by
    simp [jsonString]
  rw [hs, items_quote (readUnits_text text.toList rest) (charsOfUnits?_text text.toList),
    String.ofList_toList]

theorem numeral_front (h : c = '-' ∨ c.isDigit = true) :
    isBlank c = false ∧ c ≠ '\x22' ∧ punctuation? c = none := by
  have hne {d : Char} (hd : ¬(d = '-' ∨ d.isDigit = true)) : c ≠ d := by
    rintro rfl
    exact hd h
  refine ⟨?_, hne (by decide), ?_⟩
  · simp [isBlank, hne (d := ' ') (by decide), hne (d := '\t') (by decide),
      hne (d := '\n') (by decide), hne (d := '\r') (by decide)]
  · rw [punctuation?.eq_def]
    split
    · exact absurd rfl (hne (by decide))
    · exact absurd rfl (hne (by decide))
    · exact absurd rfl (hne (by decide))
    · exact absurd rfl (hne (by decide))
    · rfl

theorem items_toString (n : Int) (h : ∀ c ∈ rest.head?, isNumeral c = false) :
    items ((toString n).toList ++ rest) = (items rest).map (.value (.number n) :: ·) := by
  have hi := integer?_toString n
  have hm : ∀ c ∈ (toString n).toList, c = '-' ∨ c.isDigit = true := fun c => mem_toString
  generalize (toString n).toList = numeral at hi hm
  cases numeral with
  | nil => cases hi
  | cons d ds =>
    obtain ⟨hb, hq, hp⟩ := numeral_front (hm d (.head ds))
    have hds : ∀ c ∈ ds, isNumeral c = true := by
      intro c hc
      rcases hm c (.tail d hc) with rfl | hc
      · decide
      · rw [isNumeral, hc, Bool.true_or]
    -- The reader of numbers takes all that could go on, so it stops just where the number ends.
    have htake : (ds ++ rest).takeWhile isNumeral = ds := by
      rw [List.takeWhile_append_of_pos hds]
      cases rest with
      | nil => simp
      | cons c rest => simp [h c rfl]
    have hdrop : (ds ++ rest).dropWhile isNumeral = rest := by
      rw [List.dropWhile_append_of_pos hds]
      cases rest with
      | nil => rfl
      | cons c rest => simp [h c rfl]
    rw [List.cons_append, items.eq_def]
    simp only [hb, hq, hp, htake, hdrop, hi]
    rfl

end Items

end Json

/-! ## Records of tokens -/

namespace Token

open Json Text

def fields (t : Token) : Record :=
  [("type", .string t.kind.name), ("value", .string t.text), ("line", .number t.line)]

theorem fields_eq_iff {t u : Token} : t.fields = u.fields ↔ t.shown = u.shown := by
  constructor
  · intro h
    simp only [fields, List.cons.injEq, Prod.mk.injEq, Value.string.injEq, Value.number.injEq,
      true_and, and_true] at h
    obtain ⟨hk, ht, hl⟩ := h
    rw [shown, shown, Kind.name_injective hk, ht, hl]
  · intro h
    simp only [shown, Prod.mk.injEq] at h
    obtain ⟨hk, ht, hl⟩ := h
    rw [fields, fields, hk, ht, hl]

theorem toList_jsonRecord (t : Token) : t.jsonRecord.toList =
    '\x7b' :: ((jsonString "type").toList ++ ':' :: ' ' :: ((jsonString t.kind.name).toList ++
      ',' :: ' ' :: ((jsonString "value").toList ++ ':' :: ' ' :: ((jsonString t.text).toList ++
        ',' :: ' ' :: ((jsonString "line").toList ++ ':' :: ' ' :: ((toString t.line).toList ++
          ['\x7d'])))))) := by
  have ht : "\x7b\"type\": ".toList = '\x7b' :: (jsonString "type").toList ++ [':', ' '] := by
    decide
  have hv : ", \"value\": ".toList = ',' :: ' ' :: (jsonString "value").toList ++ [':', ' '] := by
    decide
  have hl : ", \"line\": ".toList = ',' :: ' ' :: (jsonString "line").toList ++ [':', ' '] := by
    decide
  have hb : "\x7d".toList = ['\x7d'] := by decide
  unfold jsonRecord
  simp only [String.toList_append, ht, hv, hl, hb, List.append_assoc, List.cons_append,
    List.nil_append]

theorem readRecord_jsonRecord (t : Token) : readRecord t.jsonRecord.toList = some t.fields := by
  have hitems : items t.jsonRecord.toList =
      some [.openBrace, .value (.string "type"), .colon, .value (.string t.kind.name), .comma,
        .value (.string "value"), .colon, .value (.string t.text), .comma,
        .value (.string "line"), .colon, .value (.number t.line), .closeBrace] := by
    have hblank (cs : List Char) : items (' ' :: cs) = items cs := items_blank (by decide)
    have hcolon (cs : List Char) : items (':' :: cs) = (items cs).map (.colon :: ·) :=
      items_punctuation rfl
    have hcomma (cs : List Char) : items (',' :: cs) = (items cs).map (.comma :: ·) :=
      items_punctuation rfl
    have hopen (cs : List Char) : items ('\x7b' :: cs) = (items cs).map (.openBrace :: ·) :=
      items_punctuation rfl
    have hclose (cs : List Char) : items ('\x7d' :: cs) = (items cs).map (.closeBrace :: ·) :=
      items_punctuation rfl
    have hnil : items [] = some [] := by rw [items.eq_def]
    have hnumeral : ∀ c ∈ ['\x7d'].head?, isNumeral c = false := by
      intro c hc
      cases hc
      decide
    rw [toList_jsonRecord]
    simp only [items_jsonString, items_toString t.line hnumeral, hblank, hcolon, hcomma, hopen,
      hclose, hnil, Option.map_some]
  rw [readRecord, hitems]
  rfl

end Token
end RpalLexer
