import RpalLexer.Proofs.CharBytes
import RpalLexer.Proofs.SupplyText

/-!
# Texts in bytes

The bytes that a text has in an encoding, with its mark where the encoding has one, and what a
decoder makes of them. Wherever the bytes are cut apart, inside a character or inside the mark, the
decoder makes the same text of them and has nothing left over. Main statements:
`Decoder.Awaits.decodes` and `Supply.hands_bytes`.
-/
namespace RpalLexer

namespace Utf16

theorem markOrder?_mark (order : ByteOrder) (bytes : List UInt8) :
    markOrder? (Encoding.unitBytes order 0xFEFF ++ bytes) = some order := by
  cases order <;> rfl

theorem length_mark (order : ByteOrder) : (Encoding.unitBytes order 0xFEFF).length = 2 := by
  cases order <;> rfl

end Utf16

namespace Decoder

variable {d : Decoder} {codec : Codec} {cs : List Char} {x bytes piece held b : List UInt8}

/-- `d.Awaits cs bytes`: with the bytes that the decoder holds, `bytes` are the text `cs`. What it
holds is less than a character or less than a mark. -/
inductive Awaits : Decoder → List Char → List UInt8 → Prop
  | plain {codec : Codec} {cs : List Char} {held bytes : List UInt8}
      (h : codec.Encodes cs (held ++ bytes)) (hend : bytes = [] → held = []) :
      Awaits ⟨.plain codec, held⟩ cs bytes
  | marked {cs : List Char} {held bytes b : List UInt8} (hm : held ++ bytes = Utf8.mark ++ b)
      (h : Utf8.codec.Encodes cs b) (hh : held.length < 3) : Awaits ⟨.seekingMark, held⟩ cs bytes
  | unmarked {cs : List Char} {held bytes : List UInt8} (h : Utf8.codec.Encodes cs (held ++ bytes))
      (hc : cs.head? ≠ some '\uFEFF') (hh : held.length < 3) (hp : held <+: Utf8.mark) :
      Awaits ⟨.seekingMark, held⟩ cs bytes
  | ordered {order : ByteOrder} {cs : List Char} {held bytes b : List UInt8}
      (hm : held ++ bytes = Encoding.unitBytes order 0xFEFF ++ b)
      (h : (Utf16.codec order).Encodes cs b) (hh : held.length < 2) :
      Awaits ⟨.seekingOrder, held⟩ cs bytes

def Advances (step : Step Failure Decoder (List Char)) (cs : List Char) (bytes : List UInt8) :
    Prop :=
  ∃ given left d', step = ⟨.ok given, d'⟩ ∧ cs = given ++ left ∧ Awaits d' left bytes

theorem advances_of_held (h : d.Awaits cs bytes) : Advances ⟨.ok [], d⟩ cs bytes :=
  ⟨[], cs, d, rfl, rfl, h⟩

theorem advances_settle (h : codec.Encodes cs (x ++ bytes)) (before : List UInt8) :
    Advances (settle (.plain codec) before (codec.decode false x)) cs bytes := by
  obtain ⟨given, left, rest, hd, hcs, hl, hr⟩ := h.decodeFrom x 0
  refine ⟨given, left, ⟨.plain codec, rest⟩, ?_, hcs, .plain hl hr⟩
  rw [Codec.decode, hd, settle]

theorem feedSeekingMark_of_short {final : Bool} (before : List UInt8) (hl : x.length < 3)
    (hp : x <+: Utf8.mark) : feedSeekingMark final before x = ⟨.ok [], ⟨.seekingMark, x⟩⟩ := by
  simp [feedSeekingMark, hl, hp]

theorem feedSeekingMark_of_mark {final : Bool} (before x : List UInt8) :
    feedSeekingMark final before (Utf8.mark ++ x) =
      settle (.plain Utf8.codec) before (Utf8.codec.decode final x) := by
  have hl : ¬(Utf8.mark ++ x).length < 3 := by
    rw [List.length_append]
    exact Nat.not_lt_of_le (Nat.le_add_right 3 x.length)
  have hdrop : (Utf8.mark ++ x).drop 3 = x := rfl
  simp only [feedSeekingMark, Bool.and_eq_true, decide_eq_true_eq, List.isPrefixOf_iff_prefix]
  rw [if_neg fun h => hl h.1, if_pos (List.prefix_append _ x), hdrop]

theorem feedSeekingMark_of_no_mark {final : Bool} (before : List UInt8)
    (hs : ¬(x.length < 3 ∧ x <+: Utf8.mark)) (hm : ¬Utf8.mark <+: x) :
    feedSeekingMark final before x =
      settle (.plain Utf8.codec) before (Utf8.codec.decode final x) := by
  simp only [feedSeekingMark, Bool.and_eq_true, decide_eq_true_eq, List.isPrefixOf_iff_prefix]
  rw [if_neg hs, if_neg hm]

theorem exists_after_mark {mark : List UInt8} (hm : x ++ bytes = mark ++ b)
    (hl : mark.length ≤ x.length) : ∃ x', x = mark ++ x' ∧ x' ++ bytes = b := by
  have hp : mark <+: x :=
    List.prefix_of_prefix_length_le (List.prefix_append mark b) (hm ▸ List.prefix_append x bytes) hl
  obtain ⟨x', rfl⟩ := hp
  rw [List.append_assoc, List.append_right_inj] at hm
  exact ⟨x', rfl, hm⟩

theorem advances_marked (hm : x ++ bytes = Utf8.mark ++ b) (h : Utf8.codec.Encodes cs b)
    (before : List UInt8) : Advances (feedSeekingMark false before x) cs bytes := by
  by_cases hl : x.length < 3
  · have hp : x <+: Utf8.mark :=
      List.prefix_of_prefix_length_le (hm ▸ List.prefix_append x bytes)
        (List.prefix_append Utf8.mark b) (Nat.le_of_lt hl)
    rw [feedSeekingMark_of_short before hl hp]
    exact advances_of_held (.marked hm h hl)
  · obtain ⟨x', rfl, rfl⟩ := exists_after_mark hm (Nat.le_of_not_lt hl)
    rw [feedSeekingMark_of_mark]
    exact advances_settle h before

theorem head?_of_begins_with_mark (h : Utf8.codec.Encodes cs (x ++ bytes)) (hm : Utf8.mark <+: x) :
    cs.head? = some '\uFEFF' := by
  obtain ⟨x', rfl⟩ := hm
  obtain ⟨c, more, hc, hf⟩ := h.front
  have hmark : Utf8.codec.front 0xEF (0xBB :: 0xBF :: (x' ++ bytes)) = .char '\uFEFF' 2 := rfl
  cases hmark.symm.trans hf
  exact hc

theorem advances_unmarked (h : Utf8.codec.Encodes cs (x ++ bytes))
    (hc : cs.head? ≠ some '\uFEFF') (before : List UInt8) :
    Advances (feedSeekingMark false before x) cs bytes := by
  by_cases hs : x.length < 3 ∧ x <+: Utf8.mark
  · rw [feedSeekingMark_of_short before hs.1 hs.2]
    exact advances_of_held (.unmarked h hc hs.1 hs.2)
  · rw [feedSeekingMark_of_no_mark before hs fun hm => hc (head?_of_begins_with_mark h hm)]
    exact advances_settle h before

theorem feedSeekingOrder_of_short (before : List UInt8) (hl : x.length < 2) :
    feedSeekingOrder false before x = ⟨.ok [], ⟨.seekingOrder, x⟩⟩ := by
  match x, hl with
  | [], _ =>
    have hd : (Utf16.codec .little).decode false [] = .ok ⟨[], []⟩ := by
      rw [Codec.decode, Codec.decodeFrom]
    simp [feedSeekingOrder, Utf16.markOrder?, hd]
  | [b₁], _ =>
    have hd : (Utf16.codec .little).decode false [b₁] = .ok ⟨[], [b₁]⟩ := by
      rw [Codec.decode, Codec.decodeFrom]
      rfl
    simp [feedSeekingOrder, Utf16.markOrder?, hd]

theorem advances_ordered {order : ByteOrder}
    (hm : x ++ bytes = Encoding.unitBytes order 0xFEFF ++ b)
    (h : (Utf16.codec order).Encodes cs b) (before : List UInt8) :
    Advances (feedSeekingOrder false before x) cs bytes := by
  by_cases hl : x.length < 2
  · rw [feedSeekingOrder_of_short before hl]
    exact advances_of_held (.ordered hm h hl)
  · have hl : (Encoding.unitBytes order 0xFEFF).length ≤ x.length := by
      rw [Utf16.length_mark]
      exact Nat.le_of_not_lt hl
    obtain ⟨x', rfl, rfl⟩ := exists_after_mark hm hl
    obtain ⟨given, left, rest, hd, hcs, hl, hr⟩ :=
      h.decodeFrom (Encoding.unitBytes order 0xFEFF ++ x') 2
    have hdrop : (Encoding.unitBytes order 0xFEFF ++ x').drop 2 = x' :=
      List.drop_left' (Utf16.length_mark order)
    refine ⟨given, left, ⟨.plain (Utf16.codec order), rest⟩, ?_, hcs, .plain hl hr⟩
    simp only [feedSeekingOrder, Utf16.markOrder?_mark, hdrop, hd]

theorem Awaits.feed (h : d.Awaits cs (piece ++ bytes)) :
    Advances (d.feed false piece) cs bytes := by
  generalize hb : piece ++ bytes = all at h
  cases h with
  | plain h hend =>
    subst hb
    rw [← List.append_assoc] at h
    exact advances_settle h _
  | marked hm h hh =>
    subst hb
    rw [← List.append_assoc] at hm
    exact advances_marked hm h _
  | unmarked h hc hh hp =>
    subst hb
    rw [← List.append_assoc] at h
    exact advances_unmarked h hc _
  | ordered hm h hh =>
    subst hb
    rw [← List.append_assoc] at hm
    exact advances_ordered hm h _

theorem eq_nil_of_part_of_mark (h : Utf8.codec.Encodes cs held) (hl : held.length < 3)
    (hp : held <+: Utf8.mark) : held = [] := by
  obtain ⟨missing, hm⟩ := hp
  match held, hl with
  | [], _ => rfl
  | [b₁], _ =>
    obtain ⟨rfl, -⟩ := List.cons.inj hm
    obtain ⟨c, more, -, hf⟩ := h.front
    have hpart : Utf8.codec.front 0xEF [] = .partly 0 .unexpectedEnd := rfl
    cases hpart.symm.trans hf
  | [b₁, b₂], _ =>
    obtain ⟨rfl, hm'⟩ := List.cons.inj hm
    obtain ⟨rfl, -⟩ := List.cons.inj hm'
    obtain ⟨c, more, -, hf⟩ := h.front
    have hpart : Utf8.codec.front 0xEF [0xBB] = .partly 1 .unexpectedEnd := rfl
    cases hpart.symm.trans hf

theorem Awaits.flush (h : d.Awaits cs []) : cs = [] ∧ (d.feed true []).result = .ok [] := by
  cases h with
  | plain h hend =>
    obtain rfl := hend rfl
    refine ⟨h.eq_nil, ?_⟩
    simp [Decoder.feed, Codec.decode, Codec.decodeFrom, settle]
  | marked hm h hh =>
    have hl := congrArg List.length hm
    simp only [List.append_nil, List.length_append] at hl
    have hmark : Utf8.mark.length = 3 := rfl
    omega
  | @unmarked _ held _ h hc hh hp =>
    rw [List.append_nil] at h
    obtain rfl := eq_nil_of_part_of_mark h hh hp
    exact ⟨h.eq_nil, rfl⟩
  | @ordered order _ _ _ _ hm h hh =>
    have hl := congrArg List.length hm
    have hmark := Utf16.length_mark order
    simp only [List.append_nil, List.length_append] at hl
    omega

theorem Awaits.decodes {pieces : List (List UInt8)} (h : d.Awaits cs pieces.flatten) :
    ∃ d', d.Decodes pieces cs d' ∧ (d'.feed true []).result = .ok [] := by
  induction pieces generalizing d cs with
  | nil =>
    obtain ⟨rfl, hr⟩ := h.flush
    exact ⟨d, .nil d, hr⟩
  | cons piece pieces ih =>
    rw [List.flatten_cons] at h
    obtain ⟨given, left, d₁, hf, rfl, h₁⟩ := h.feed
    obtain ⟨d', hd, hr⟩ := ih h₁
    exact ⟨d', .cons hf hd, hr⟩

end Decoder

namespace Encoding

variable {e : Encoding} {text : List Char} {bytes : List UInt8}

/-- `e.Writes text bytes`: the bytes are the text in the encoding. `utf8Marked` may leave out its
mark in front of a text that does not start with the same character, and `utf16Marked` may have
either byte order. -/
def Writes (e : Encoding) (text : List Char) (bytes : List UInt8) : Prop :=
  match e with
  | .utf8Marked => ∃ b, Encoding.utf8.encodeChars? text = some b ∧
      (bytes = Utf8.mark ++ b ∨ bytes = b ∧ text.head? ≠ some '\uFEFF')
  | .utf16Marked => ∃ order b, (Encoding.utf16 order).encodeChars? text = some b ∧
      bytes = unitBytes order 0xFEFF ++ b
  | .undefined => False
  | e => e.encodeChars? text = some bytes

theorem Writes.awaits (h : e.Writes text bytes) : (Decoder.ofEncoding e).Awaits text bytes := by
  have hplain {e : Encoding} {codec : Codec} (he : e.SpelledBy codec) {b : List UInt8}
      (hb : e.encodeChars? text = some b) : (⟨.plain codec, []⟩ : Decoder).Awaits text b :=
    .plain (he.encodes hb) fun _ => rfl
  match e with
  | .utf8 => exact hplain spelledBy_utf8 h
  | .ascii => exact hplain spelledBy_ascii h
  | .latin1 => exact hplain spelledBy_latin1 h
  | .utf16 order => exact hplain (spelledBy_utf16 order) h
  | .utf8Marked =>
    obtain ⟨b, hb, rfl | ⟨rfl, hc⟩⟩ := h
    · exact .marked rfl (spelledBy_utf8.encodes hb) (Nat.zero_lt_succ 2)
    · exact .unmarked (spelledBy_utf8.encodes hb) hc (Nat.zero_lt_succ 2) (List.nil_prefix)
  | .utf16Marked =>
    obtain ⟨order, b, hb, rfl⟩ := h
    exact .ordered rfl ((spelledBy_utf16 order).encodes hb) (Nat.zero_lt_succ 1)
  | .undefined => exact h.elim

theorem encodeChars?_congr (e e' : Encoding) (h : e.encodeChar? = e'.encodeChar?)
    (text : List Char) : e.encodeChars? text = e'.encodeChars? text := by
  induction text with
  | nil => rfl
  | cons c cs ih => rw [encodeChars?, encodeChars?, h, ih]

theorem writes_of_encode? (he : e ≠ .undefined) (h : e.encode? text = some bytes) :
    e.Writes text bytes := by
  obtain ⟨b, hb, rfl⟩ := Option.map_eq_some_iff.1 h
  match e with
  | .utf8 | .ascii | .latin1 | .utf16 _ => exact hb
  | .utf8Marked =>
    have hc := encodeChars?_congr .utf8 .utf8Marked rfl text
    exact ⟨b, hc.trans hb, Or.inl rfl⟩
  | .utf16Marked =>
    have hc := encodeChars?_congr (.utf16 .little) .utf16Marked rfl text
    exact ⟨.little, b, hc.trans hb, rfl⟩
  | .undefined => exact absurd rfl he

end Encoding

namespace Supply

theorem hands_text {pieces : List (List Char)} (hp : [] ∉ pieces) (s : Stream Char) :
    (Supply.text { s with readings := pieces.map .piece }).Hands none pieces.flatten :=
  (parts_text hp (.plain .badText "") [] s).ends

theorem hands_bytes {d : Decoder} {cs : List Char} {pieces : List (List UInt8)} (hp : [] ∉ pieces)
    (h : d.Awaits cs pieces.flatten) (encoding : String) (s : Stream UInt8) :
    (Supply.bytes encoding d { s with readings := pieces.map .piece }).Hands none cs := by
  obtain ⟨d', hd, hl⟩ := h.decodes
  exact (parts_bytes encoding hp hd hl (.failure (f := .plain .badText "")) [] s).ends

end Supply
end RpalLexer
