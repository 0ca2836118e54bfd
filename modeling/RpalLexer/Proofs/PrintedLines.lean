import RpalLexer.CommandLine.Run
import RpalLexer.Proofs.JsonRecords

/-!
# Printed lines

What is printed of a line are its characters but for those of control sequences. A JSON record is
printed as it is, for all its characters are in printable ASCII, and so is a listed token without
control sequences. Main statements: `tokenLines_json` and `tokenLines_text_eq_iff`.
-/
namespace RpalLexer

namespace Text

variable {cs rest : List Char}

theorem afterSequence?_suffix (h : afterSequence? cs = some rest) : rest <:+ cs := by
  unfold afterSequence? at h
  split at h
  · rename_i cs
    split at h
    · rename_i c tail ht
      split at h
      · cases h
        have hs : rest <:+ c :: rest := List.suffix_cons c rest
        rw [← ht] at hs
        have hdrop := (List.dropWhile_suffix isIntermediate).trans
          (List.dropWhile_suffix (l := cs) isParameter)
        exact (hs.trans hdrop).trans ((List.suffix_cons '[' cs).trans (List.suffix_cons _ _))
      · cases h
    · cases h
  · cases h

theorem afterSequence?_of_notMem (h : '\x1b' ∉ cs) : afterSequence? cs = none := by
  unfold afterSequence?
  split
  · exact absurd List.mem_cons_self h
  · rfl

theorem plainChars_sublist (cs : List Char) : (plainChars cs).Sublist cs := by
  fun_induction plainChars cs with
  | case1 cs rest h ih => exact ih.trans (afterSequence?_suffix h).sublist
  | case2 h => exact .slnil
  | case3 c cs h ih => exact ih.cons_cons c

theorem plainChars_of_notMem (h : '\x1b' ∉ cs) : plainChars cs = cs := by
  fun_induction plainChars cs with
  | case1 cs rest hs ih =>
    rw [afterSequence?_of_notMem h] at hs
    cases hs
  | case2 hs => rfl
  | case3 c cs hs ih => rw [ih fun hm => h (.tail c hm)]

variable {text : String}

theorem plain_of_notMem (h : '\x1b' ∉ text.toList) : plain text = text := by
  rw [plain, plainChars_of_notMem h, String.ofList_toList]

theorem length_plain_le (text : String) : (plain text).length ≤ text.length := by
  rw [← String.length_toList, ← String.length_toList, plain, String.toList_ofList]
  exact (plainChars_sublist text.toList).length_le

theorem plain_eq_of_length (h : (plain text).length = text.length) : plain text = text := by
  rw [← String.length_toList, ← String.length_toList, plain, String.toList_ofList] at h
  rw [plain, (plainChars_sublist text.toList).eq_of_length h, String.ofList_toList]

def PrintableAscii (cs : List Char) : Prop := ∀ c ∈ cs, ' ' ≤ c ∧ c ≤ '~'

theorem printableAscii_nil : PrintableAscii [] := List.forall_mem_nil _

theorem printableAscii_cons {c : Char} :
    PrintableAscii (c :: cs) ↔ (' ' ≤ c ∧ c ≤ '~') ∧ PrintableAscii cs := List.forall_mem_cons

theorem printableAscii_append {ds : List Char} :
    PrintableAscii (cs ++ ds) ↔ PrintableAscii cs ∧ PrintableAscii ds := List.forall_mem_append

theorem PrintableAscii.notMem {c : Char} (h : PrintableAscii cs) (hc : c < ' ') : c ∉ cs :=
  fun hm => Char.not_lt.2 (h c hm).1 hc

theorem printable_digitChar {d : Nat} (h : d < 16) :
    ' ' ≤ Nat.digitChar d ∧ Nat.digitChar d ≤ '~' := by
  have hall : ∀ d < 16, ' ' ≤ Nat.digitChar d ∧ Nat.digitChar d ≤ '~' := by decide
  exact hall d h

theorem printableAscii_hexDigits {u : Nat} (hu : u < 0x10000) :
    PrintableAscii (hexDigits 4 u) := by
  rw [Json.hexDigits_succ_succ, Json.hexDigits_succ_succ, Json.hexDigits_succ_succ,
    Json.hexDigits_one (by omega)]
  simp only [List.cons_append, List.nil_append, printableAscii_cons]
  exact ⟨printable_digitChar (by omega), printable_digitChar (Nat.mod_lt _ (by decide)),
    printable_digitChar (Nat.mod_lt _ (by decide)), printable_digitChar (Nat.mod_lt _ (by decide)),
    printableAscii_nil⟩

theorem printableAscii_jsonChar (c : Char) : PrintableAscii (jsonChar c) := by
  have hpair {x : Char} (hx : ' ' ≤ x ∧ x ≤ '~') : PrintableAscii ['\\', x] :=
    printableAscii_cons.2 ⟨by decide, printableAscii_cons.2 ⟨hx, printableAscii_nil⟩⟩
  rw [jsonChar]
  split_ifs with hquote hbackslash hn hr ht hb hf hplain
  · exact hpair (by decide)
  · exact hpair (by decide)
  · exact hpair (by decide)
  · exact hpair (by decide)
  · exact hpair (by decide)
  · exact hpair (by decide)
  · exact hpair (by decide)
  · exact printableAscii_cons.2 ⟨by simpa using hplain, printableAscii_nil⟩
  · intro d hd
    obtain ⟨u, hu, hd⟩ := List.mem_flatMap.1 hd
    have hescape : PrintableAscii ('\\' :: 'u' :: hexDigits 4 u) := by
      rw [printableAscii_cons, printableAscii_cons]
      exact ⟨by decide, by decide, printableAscii_hexDigits (Json.lt_of_mem_utf16Units hu)⟩
    exact hescape d hd

theorem printableAscii_jsonString (text : String) : PrintableAscii (jsonString text).toList := by
  rw [jsonString, String.toList_ofList, printableAscii_append, printableAscii_cons,
    printableAscii_cons]
  refine ⟨⟨by decide, fun d hd => ?_⟩, by decide, printableAscii_nil⟩
  obtain ⟨c, -, hc⟩ := List.mem_flatMap.1 hd
  exact printableAscii_jsonChar c d hc

theorem printableAscii_toString (n : Int) : PrintableAscii (toString n).toList := by
  intro c hc
  rcases mem_toString hc with rfl | hd
  · decide
  · simp only [Char.isDigit, Bool.and_eq_true, decide_eq_true_eq] at hd
    exact ⟨Char.le_trans (by decide) hd.1, Char.le_trans hd.2 (by decide)⟩

end Text

theorem Token.printableAscii_jsonRecord (t : Token) : Text.PrintableAscii t.jsonRecord.toList := by
  rw [toList_jsonRecord]
  simp only [Text.printableAscii_cons, Text.printableAscii_append, Text.printableAscii_jsonString,
    Text.printableAscii_toString, Text.printableAscii_nil]
  decide

namespace CommandLine

variable {ts : List Token}

theorem plain_jsonRecord (t : Token) : Text.plain t.jsonRecord = t.jsonRecord := by
  apply Text.plain_of_notMem
  exact t.printableAscii_jsonRecord.notMem (by decide)

theorem tokenLines_json (ts : List Token) :
    tokenLines true ts = String.join (ts.map fun t => t.jsonRecord ++ "\n") := by
  have he : tokenLine true = fun t => t.jsonRecord ++ "\n" := by
    funext t
    simp only [tokenLine, if_true, printed, plain_jsonRecord]
  rw [tokenLines, he]

theorem tokenLines_cons (asJson : Bool) (t : Token) (ts : List Token) :
    tokenLines asJson (t :: ts) = tokenLine asJson t ++ tokenLines asJson ts := by
  rw [tokenLines, List.map_cons, String.join_cons, tokenLines]

theorem tokenLines_append (asJson : Bool) (ts us : List Token) :
    tokenLines asJson (ts ++ us) = tokenLines asJson ts ++ tokenLines asJson us := by
  rw [tokenLines, List.map_append, String.join_append, tokenLines, tokenLines]

theorem length_tokenLines_cons (t : Token) (ts : List Token) :
    (tokenLines false (t :: ts)).length =
      (Text.plain t.listed).length + 1 + (tokenLines false ts).length := by
  rw [tokenLines_cons, String.length_append, tokenLine, printed, String.length_append]
  rfl

theorem length_listing_cons (t : Token) (ts : List Token) :
    (listing (t :: ts)).length = t.listed.length + 1 + (listing ts).length := by
  rw [listing_cons, String.length_append, String.length_append]
  rfl

theorem length_tokenLines_le (ts : List Token) :
    (tokenLines false ts).length ≤ (listing ts).length := by
  induction ts with
  | nil => exact Nat.le_refl _
  | cons t ts ih =>
    have hle := Text.length_plain_le t.listed
    rw [length_tokenLines_cons, length_listing_cons]
    omega

/-- A listing is printed as it is if and only if it shows no control sequence. -/
theorem tokenLines_text_eq_iff :
    tokenLines false ts = listing ts ↔ ∀ t ∈ ts, Text.plain t.listed = t.listed := by
  constructor
  · intro h
    -- No printed line is longer than the line, so all of them are as long.
    have hl := congrArg String.length h
    clear h
    induction ts with
    | nil => simp
    | cons t ts ih =>
      have hle := Text.length_plain_le t.listed
      have hle' := length_tokenLines_le ts
      rw [length_tokenLines_cons, length_listing_cons] at hl
      rw [List.forall_mem_cons]
      exact ⟨Text.plain_eq_of_length (by omega), ih (by omega)⟩
  · intro h
    induction ts with
    | nil => rfl
    | cons t ts ih =>
      rw [List.forall_mem_cons] at h
      rw [tokenLines_cons, listing_cons, ih h.2, tokenLine, if_neg (by decide), printed, h.1]

end CommandLine
end RpalLexer
