import RpalLexer.Proofs.ByteReads
import RpalLexer.Proofs.EncodedText

/-!
# Marks in front of bytes

How bytes that come one at a time end, for every encoding: as the text that all of them are, at
bytes that cannot be decoded, or because of the mark that stands in front. A mark of UTF-8 that is
cut off passes for no input at all, and UTF-16 without a mark ends in a failure that is no decoding
failure. Main statement: `Encoding.exists_ending`.
-/
namespace RpalLexer

namespace Encoding

/-- The bytes behind the mark and the encoding that they are in. Without a mark UTF-16 is
little-endian. -/
def behindMark (e : Encoding) (bytes : List UInt8) : Encoding × List UInt8 :=
  match e with
  | .utf8Marked => (.utf8, if Utf8.mark.isPrefixOf bytes then bytes.drop 3 else bytes)
  | .utf16Marked =>
    match Utf16.markOrder? bytes with
    | some order => (.utf16 order, bytes.drop 2)
    | none => (.utf16 .little, bytes)
  | e => (e, bytes)

/-- All of the bytes, but for a mark, are the text. -/
def IsText (e : Encoding) (text : List Char) (bytes : List UInt8) : Prop :=
  (e.behindMark bytes).1.encodeChars? text = some (e.behindMark bytes).2

/-- The bytes begin with a character where the mark of UTF-16 should be. -/
def LacksMark (e : Encoding) (bytes : List UInt8) : Prop :=
  e = .utf16Marked ∧ Utf16.markOrder? bytes = none ∧
    ∃ c front, (Encoding.utf16 .little).encodeChar? c = some front ∧ front <+: bytes

/-- The bytes are a part of the mark of UTF-8 and nothing else. -/
def CutsMark (e : Encoding) (bytes : List UInt8) : Prop :=
  e = .utf8Marked ∧ bytes ≠ [] ∧ bytes ≠ Utf8.mark ∧ bytes <+: Utf8.mark

def noMarkFailure : Failure := .plain .badText "UTF-16 stream does not start with BOM"

/-- How bytes can end: the failure that stops the decoder, if there is one, and the text before. -/
inductive Ending (e : Encoding) (bytes : List UInt8) : Option Failure → List Char → Prop
  | whole {text : List Char} (h : e.IsText text bytes) (hm : ¬e.LacksMark bytes) :
      Ending e bytes none text
  | cutMark (h : e.CutsMark bytes) : Ending e bytes none []
  | broken {f : DecodeFailure} {text : List Char} (h : ∀ text', ¬e.IsText text' bytes)
      (hm : ¬e.LacksMark bytes) (hc : ¬e.CutsMark bytes) :
      Ending e bytes (some (.undecodable f)) text
  | noMark (h : e.LacksMark bytes) : Ending e bytes (some noMarkFailure) []

end Encoding

namespace Utf16

variable {order : ByteOrder} {bytes x : List UInt8}

theorem exists_of_markOrder? (h : markOrder? bytes = some order) :
    ∃ b, bytes = Encoding.unitBytes order 0xFEFF ++ b := by
  unfold markOrder? at h
  split at h
  · rename_i b₁ b₂ b
    split_ifs at h with hl hb
    · cases h
      exact ⟨b, by rw [hl.1, hl.2]; rfl⟩
    · cases h
      exact ⟨b, by rw [hb.1, hb.2]; rfl⟩
  · cases h

theorem markOrder?_front (h : markOrder? bytes = none) (hp : x <+: bytes) :
    markOrder? x = none := by
  cases hx : markOrder? x with
  | none => rfl
  | some order =>
    obtain ⟨b, rfl⟩ := exists_of_markOrder? hx
    obtain ⟨y, rfl⟩ := hp
    rw [List.append_assoc, markOrder?_mark] at h
    cases h

end Utf16

theorem Utf8.spells_mark : Utf8.codec.Spells '\uFEFF' 0xEF [0xBB, 0xBF] := by
  have hm : Encoding.utf8.encodeChar? '\uFEFF' = some Utf8.mark := by decide +kernel
  obtain ⟨b, tail, hb, h⟩ := Encoding.spelledBy_utf8 _ _ hm
  cases hb
  exact h

namespace Decoder

variable {codec : Codec} {bytes data held : List UInt8} {final : Bool} {b : UInt8}

theorem feedSeekingOrder_of_stuck (hm : Utf16.markOrder? data = none)
    (hs : (Utf16.codec .little).Stuck data) : feedSeekingOrder final held data =
      settle .seekingOrder held ((Utf16.codec .little).decode final data) := by
  -- A character would be refused, but the codec makes none of these bytes.
  simp only [feedSeekingOrder, hm]
  cases hd : (Utf16.codec .little).decode final data with
  | error f => rfl
  | ok d =>
    obtain ⟨chars, rest⟩ := d
    cases chars with
    | nil => rfl
    | cons c cs =>
      cases data with
      | nil =>
        rw [Codec.decode, Codec.decodeFrom] at hd
        cases hd
      | cons b bs =>
        cases final with
        | true =>
          obtain ⟨f, hf⟩ := hs.decodeFrom_final (List.cons_ne_nil b bs) (b :: bs) 0
          cases hf.symm.trans hd
        | false =>
          rcases hs.decodeFrom_cases (b :: bs) 0 with hf | ⟨f, hf⟩
          · cases hf.symm.trans hd
          · cases hf.symm.trans hd

theorem follows_seekingOrder (hm : Utf16.markOrder? bytes = none)
    (hs : (Utf16.codec .little).Stuck bytes) :
    Follows .seekingOrder (Utf16.codec .little) bytes :=
  fun _ _ _ hp => feedSeekingOrder_of_stuck (Utf16.markOrder?_front hm hp)
    ((Encoding.readBy_utf16 .little).stuck_front hs hp)

section Mark

variable {m : UInt8} {left : List UInt8}

theorem length_lt_of_part_of_mark (hm : held ++ left = Utf8.mark) (hl : left ≠ []) :
    held.length < 3 := by
  have hlen := congrArg List.length hm
  have hmark : Utf8.mark.length = 3 := rfl
  have hpos := List.length_pos_iff.2 hl
  rw [List.length_append, hmark] at hlen
  omega

theorem feed_seekingMark_end (hm : held ++ left = Utf8.mark) (hl : left ≠ []) :
    feed ⟨.seekingMark, held⟩ true [] = ⟨.ok [], ⟨.seekingMark, held⟩⟩ := by
  change feedSeekingMark true held (held ++ []) = _
  rw [List.append_nil, feedSeekingMark_of_short held (length_lt_of_part_of_mark hm hl) ⟨left, hm⟩]

theorem feed_seekingMark_part (hm : held ++ [m] ++ left = Utf8.mark) (hl : left ≠ []) :
    feed ⟨.seekingMark, held⟩ false [m] = ⟨.ok [], ⟨.seekingMark, held ++ [m]⟩⟩ :=
  feedSeekingMark_of_short held (length_lt_of_part_of_mark hm hl) ⟨left, hm⟩

theorem feed_plain_part (hm : held ++ [m] ++ left = Utf8.mark) (hl : left ≠ []) :
    feed ⟨.plain Utf8.codec, held⟩ false [m] = ⟨.ok [], ⟨.plain Utf8.codec, held ++ [m]⟩⟩ := by
  rw [follows_plain Utf8.codec _ held false [m] (List.prefix_refl _),
    Utf8.spells_mark.decode_part hm.symm hl]
  rfl

theorem feed_seekingMark_last (hm : held ++ [m] = Utf8.mark) :
    feed ⟨.seekingMark, held⟩ false [m] = ⟨.ok [], ⟨.plain Utf8.codec, []⟩⟩ := by
  have h : feedSeekingMark false held (Utf8.mark ++ []) = _ := feedSeekingMark_of_mark held []
  have hnil : Utf8.codec.decode false [] = .ok ⟨[], []⟩ := by rw [Codec.decode, Codec.decodeFrom]
  rw [List.append_nil, hnil, ← hm] at h
  exact h

theorem feed_seekingMark_of_ne (hm : held ++ m :: left = Utf8.mark) (hb : b ≠ m) :
    feed ⟨.seekingMark, held⟩ false [b] = feed ⟨.plain Utf8.codec, held⟩ false [b] := by
  have hshort : ¬held ++ [b] <+: Utf8.mark := by
    rw [← hm, List.prefix_append_right_inj]
    simp [List.cons_prefix_cons, hb]
  have hfull : ¬Utf8.mark <+: held ++ [b] := by
    rw [← hm, List.prefix_append_right_inj]
    simp [List.cons_prefix_cons, Ne.symm hb]
  exact feedSeekingMark_of_no_mark held (fun h => hshort h.2) hfull

end Mark

end Decoder

namespace Supply

variable {name : String} {codec : Codec} {stop : Option Failure} {text : List Char} {c : Char}
  {supply supply' : Supply} {d d' : Decoder} {s s' : Stream UInt8} {b : UInt8}
  {bytes tail held missing left rest valid : List UInt8} {n : Nat} {order : ByteOrder}

theorem Hands.of_next (h : supply'.Hands stop text) (hn : supply.next = supply'.next) :
    supply.Hands stop text := by
  cases h with
  | stop h => exact .stop (by rw [hn, h])
  | piece h' h => exact .piece (hn.trans h') h

theorem hands_between_of_encodes (h : codec.Encodes text valid)
    (hrest : (between name codec (n + valid.length) rest).Hands stop []) :
    (between name codec n (valid ++ rest)).Hands stop text := by
  induction h generalizing n with
  | nil => exact hrest
  | @cons c cs b tail bytes hc _ ih =>
    have hn : (between name codec n (b :: tail ++ (bytes ++ rest))).next = _ :=
      next_between hc n (bytes ++ rest)
    rw [← List.append_assoc] at hn
    rw [List.length_append, ← Nat.add_assoc] at hrest
    exact .piece hn (ih hrest)

theorem exists_hands_between {e : Encoding} (h : e.ReadBy codec) (name : String) (n : Nat)
    (bytes : List UInt8) : ∃ stop text, (between name codec n bytes).Hands stop text ∧
      (stop = none ∧ e.encodeChars? text = some bytes ∨
        ∃ f, stop = some (.undecodable f) ∧ ∀ text', e.encodeChars? text' ≠ some bytes) := by
  obtain ⟨text, valid, rest, rfl, ht, hs⟩ := h.exists_split bytes
  rcases result_next_between_of_stuck name h hs (n + valid.length) with
    ⟨hr, rfl⟩ | ⟨f, hr, hne⟩
  · refine ⟨none, text, hands_between_of_encodes (h.encodes ht) (.stop hr), Or.inl ⟨rfl, ?_⟩⟩
    rw [ht, List.append_nil]
  · exact ⟨some (.undecodable f), text, hands_between_of_encodes (h.encodes ht) (.stop hr),
      Or.inr ⟨f, rfl, h.ne_of_stuck ht hs hne⟩⟩

theorem decodeNext_of_feed_eq {bs : List UInt8} (hr : s.read = ⟨.ok (b :: bs), s'⟩)
    (hf : d.feed false (b :: bs) = d'.feed false (b :: bs)) :
    decodeNext name d s = decodeNext name d' s := by
  cases h : d'.feed false (b :: bs) with
  | mk result d₁ =>
    rw [h] at hf
    match result with
    | .ok [] => rw [decodeNext_of_no_chars hr hf, decodeNext_of_no_chars hr h]
    | .ok (c :: cs) => rw [decodeNext_of_chars hr hf, decodeNext_of_chars hr h]
    | .error f => rw [decodeNext_of_undecodable hr hf, decodeNext_of_undecodable hr h]

/-- What becomes of bytes of which the decoder holds a part of the mark: the mark is complete and
dropped, the input ends within it, or the bytes are read as if no mark was looked for. -/
theorem decodeNext_seekingMark_cases (name : String) (hm : held ++ left = Utf8.mark)
    (hl : left ≠ []) (n : Nat) (bytes : List UInt8) :
    let step := decodeNext name ⟨.seekingMark, held⟩ (.coming n bytes)
    (∃ b, bytes = left ++ b ∧ step = (between name Utf8.codec (n + left.length) b).next) ∨
      (bytes <+: left ∧ bytes ≠ left ∧ step.result = .ok []) ∨
      ¬left <+: bytes ∧ ¬bytes <+: left ∧
        step = decodeNext name ⟨.plain Utf8.codec, held⟩ (.coming n bytes) := by
  -- With each byte of the mark that comes, one more is held and one less is missing.
  induction left generalizing held n bytes with
  | nil => exact absurd rfl hl
  | cons m left ih =>
    cases bytes with
    | nil =>
      refine Or.inr (Or.inl ⟨List.nil_prefix, (List.cons_ne_nil m left).symm, ?_⟩)
      rw [decodeNext_of_end (Stream.read_coming_nil n), Decoder.feed_seekingMark_end hm hl]
    | cons b bytes =>
      have hread := Stream.read_coming_cons n b bytes
      by_cases hb : b = m
      · subst hb
        rw [List.append_cons] at hm
        by_cases hleft : left = []
        · subst hleft
          rw [List.append_nil] at hm
          exact Or.inl ⟨bytes, rfl,
            decodeNext_of_no_chars hread (Decoder.feed_seekingMark_last hm)⟩
        · have hn : n + (left.length + 1) = n + 1 + left.length := by omega
          simp only [decodeNext_of_no_chars hread (Decoder.feed_seekingMark_part hm hleft),
            decodeNext_of_no_chars hread (Decoder.feed_plain_part hm hleft), List.cons_append,
            List.cons.injEq, true_and, List.cons_prefix_cons, List.length_cons, hn]
          simpa using ih hm hleft (n + 1) bytes
      · refine Or.inr (Or.inr ⟨?_, ?_, ?_⟩)
        · simp [List.cons_prefix_cons, Ne.symm hb]
        · simp [List.cons_prefix_cons, hb]
        · exact decodeNext_of_feed_eq hread (Decoder.feed_seekingMark_of_ne hm hb)

theorem decodeNext_seekingOrder_of_mark (order : ByteOrder) (n : Nat) (bytes : List UInt8) :
    decodeNext name ⟨.seekingOrder, []⟩
        (.coming n (Encoding.unitBytes order 0xFEFF ++ bytes)) =
      (between name (Utf16.codec order) (n + 2) bytes).next := by
  obtain ⟨b, b', hb⟩ : ∃ b b', Encoding.unitBytes order 0xFEFF = [b, b'] := by
    cases order <;> exact ⟨_, _, rfl⟩
  have hread : (Stream.coming n (Encoding.unitBytes order 0xFEFF ++ bytes)).read =
      ⟨.ok [b], .coming (n + 1) (b' :: bytes)⟩ := by rw [hb]; rfl
  have hf : Decoder.feed ⟨.seekingOrder, []⟩ false [b] = ⟨.ok [], ⟨.seekingOrder, [b]⟩⟩ :=
    Decoder.feedSeekingOrder_of_short (x := [b]) [] (Nat.lt_succ_self 1)
  have horder : Utf16.markOrder? [b, b'] = some order := by
    rw [← hb, ← List.append_nil (Encoding.unitBytes order 0xFEFF), Utf16.markOrder?_mark]
  have hf' : Decoder.feed ⟨.seekingOrder, [b]⟩ false [b'] =
      ⟨.ok [], ⟨.plain (Utf16.codec order), []⟩⟩ := by
    change Decoder.feedSeekingOrder false [b] [b, b'] = _
    simp only [Decoder.feedSeekingOrder, horder, List.drop_succ_cons, List.drop_zero,
      Codec.decodeFrom]
  rw [decodeNext_of_no_chars hread hf, decodeNext_of_no_chars (Stream.read_coming_cons _ _ _) hf']
  rfl

theorem result_decodeNext_of_no_mark (name : String) (h : (Utf16.codec .little).Spells c b tail)
    (hm : Utf16.markOrder? (b :: tail) = none) (hb : b :: tail = held ++ missing)
    (hne : missing ≠ []) :
    (decodeNext name ⟨.seekingOrder, held⟩ (.coming n (missing ++ rest))).result =
      .error Encoding.noMarkFailure := by
  induction missing generalizing held n with
  | nil => exact absurd rfl hne
  | cons m missing ih =>
    have hread : (Stream.coming n (m :: missing ++ rest)).read =
        ⟨.ok [m], .coming (n + 1) (missing ++ rest)⟩ := rfl
    rw [List.append_cons] at hb
    have hm' := Utf16.markOrder?_front hm ⟨missing, hb.symm⟩
    have hfeed : Decoder.feed ⟨.seekingOrder, held⟩ false [m] =
        Decoder.feedSeekingOrder false held (held ++ [m]) := rfl
    by_cases hlast : missing = []
    · subst hlast
      rw [List.append_nil] at hb
      rw [← hb] at hfeed
      simp only [Decoder.feedSeekingOrder, hm, h.decode_whole] at hfeed
      rw [decodeNext_of_undecodable hread hfeed]
      rfl
    · simp only [Decoder.feedSeekingOrder, hm', h.decode_part hb hlast] at hfeed
      rw [decodeNext_of_no_chars hread hfeed]
      exact ih hb hlast

end Supply

namespace Encoding

variable {e : Encoding} {codec : Codec} {bytes : List UInt8} {text : List Char}

theorem isText_of_unmarked (he : e ∈ unmarked) :
    e.IsText text bytes ↔ e.encodeChars? text = some bytes := by
  simp only [unmarked, List.mem_cons, List.not_mem_nil, or_false] at he
  rcases he with rfl | rfl | rfl | rfl | rfl <;> rfl

theorem isText_of_mark (text : List Char) (b : List UInt8) :
    utf8Marked.IsText text (Utf8.mark ++ b) ↔ utf8.encodeChars? text = some b := by
  have hp : Utf8.mark.isPrefixOf (Utf8.mark ++ b) = true := by
    rw [List.isPrefixOf_iff_prefix]
    exact List.prefix_append _ b
  have hdrop : (Utf8.mark ++ b).drop 3 = b := rfl
  rw [IsText, behindMark, if_pos hp, hdrop]

theorem isText_of_no_mark (h : ¬Utf8.mark <+: bytes) :
    utf8Marked.IsText text bytes ↔ utf8.encodeChars? text = some bytes := by
  have hp : ¬Utf8.mark.isPrefixOf bytes = true := by rwa [List.isPrefixOf_iff_prefix]
  rw [IsText, behindMark, if_neg hp]

theorem isText_of_order (order : ByteOrder) (text : List Char) (b : List UInt8) :
    utf16Marked.IsText text (unitBytes order 0xFEFF ++ b) ↔
      (utf16 order).encodeChars? text = some b := by
  have hdrop : (unitBytes order 0xFEFF ++ b).drop 2 = b := List.drop_left' (Utf16.length_mark order)
  rw [IsText, behindMark]
  simp only [Utf16.markOrder?_mark, hdrop]

theorem isText_of_no_order (h : Utf16.markOrder? bytes = none) :
    utf16Marked.IsText text bytes ↔ (utf16 .little).encodeChars? text = some bytes := by
  rw [IsText, behindMark]
  simp only [h]

theorem CutsMark.length_lt (h : e.CutsMark bytes) : bytes.length < 3 := by
  obtain ⟨-, -, hne, hp⟩ := h
  have hmark : Utf8.mark.length = 3 := rfl
  have hle := hp.length_le
  have hlen : bytes.length ≠ Utf8.mark.length := fun hl => hne (hp.eq_of_length hl)
  omega

theorem CutsMark.not_isText (h : e.CutsMark bytes) (text : List Char) : ¬e.IsText text bytes := by
  have hl := h.length_lt
  obtain ⟨rfl, hne, -, hp⟩ := h
  have hmark : ¬Utf8.mark <+: bytes := fun hm => absurd hm.length_le (Nat.not_le_of_lt hl)
  rw [isText_of_no_mark hmark]
  intro ht
  exact hne (Decoder.eq_nil_of_part_of_mark (readBy_utf8.encodes ht) hl hp)

theorem isText_unique {text' : List Char} (he : e ≠ .undefined) (h : e.IsText text bytes)
    (h' : e.IsText text' bytes) : text' = text := by
  obtain ⟨codec, hc⟩ : ∃ codec, (e.behindMark bytes).1.ReadBy codec := by
    cases e with
    | utf8 => exact ⟨_, readBy_utf8⟩
    | utf8Marked => exact ⟨_, readBy_utf8⟩
    | ascii => exact ⟨_, readBy_ascii⟩
    | latin1 => exact ⟨_, readBy_latin1⟩
    | utf16 order => exact ⟨_, readBy_utf16 order⟩
    | utf16Marked =>
      rw [behindMark]
      split
      · rename_i order _
        exact ⟨_, readBy_utf16 order⟩
      · exact ⟨_, readBy_utf16 .little⟩
    | undefined => exact absurd rfl he
  exact hc.text_unique h h'

theorem Ending.eq_none_iff {stop : Option Failure} {cs : List Char} (h : e.Ending bytes stop text)
    (he : e ≠ .undefined) : stop = none ∧ cs = text ↔
      e.IsText cs bytes ∧ ¬e.LacksMark bytes ∨ e.CutsMark bytes ∧ cs = [] := by
  cases h with
  | whole ht hl =>
    constructor
    · rintro ⟨-, rfl⟩
      exact Or.inl ⟨ht, hl⟩
    · rintro (⟨ht', -⟩ | ⟨hcut, -⟩)
      · exact ⟨rfl, isText_unique he ht ht'⟩
      · exact absurd ht (hcut.not_isText _)
  | cutMark hcut =>
    constructor
    · rintro ⟨-, rfl⟩
      exact Or.inr ⟨hcut, rfl⟩
    · rintro (⟨ht, -⟩ | ⟨-, rfl⟩)
      · exact absurd ht (hcut.not_isText _)
      · exact ⟨rfl, rfl⟩
  | broken hno hl hcut =>
    constructor
    · rintro ⟨hs, -⟩
      cases hs
    · rintro (⟨ht, -⟩ | ⟨hcut', -⟩)
      · exact absurd ht (hno cs)
      · exact absurd hcut' hcut
  | noMark hl =>
    constructor
    · rintro ⟨hs, -⟩
      cases hs
    · rintro (⟨-, hl'⟩ | ⟨hcut, -⟩)
      · exact absurd hl hl'
      · cases hl.1.symm.trans hcut.1

section Endings

variable {stop : Option Failure} {supply : Supply} {name : String}

theorem exists_ending_of_next {e' : Encoding} {n : Nat} {b : List UInt8}
    (hc : e'.ReadBy codec) (hn : supply.next = (Supply.between name codec n b).next)
    (ht : ∀ text, e.IsText text bytes ↔ e'.encodeChars? text = some b)
    (hl : ¬e.LacksMark bytes) (hcut : ¬e.CutsMark bytes) :
    ∃ stop text, supply.Hands stop text ∧ e.Ending bytes stop text := by
  obtain ⟨stop, text, hh, ⟨rfl, hb⟩ | ⟨f, rfl, hb⟩⟩ := Supply.exists_hands_between hc name n b
  · exact ⟨none, text, hh.of_next hn, .whole ((ht text).2 hb) hl⟩
  · refine ⟨some (.undecodable f), text, hh.of_next hn, .broken (fun text' h => ?_) hl hcut⟩
    exact hb text' ((ht text').1 h)

theorem exists_ending_utf8Marked (name : String) (bytes : List UInt8) : ∃ stop text,
    (Supply.bytes name ⟨.seekingMark, []⟩ (.ofItems bytes)).Hands stop text ∧
      utf8Marked.Ending bytes stop text := by
  have hl : ¬utf8Marked.LacksMark bytes := fun h => by cases h.1
  rcases Supply.decodeNext_seekingMark_cases name (List.nil_append Utf8.mark) (by decide) 0 bytes
    with ⟨b, rfl, hn⟩ | ⟨hp, hne, hr⟩ | ⟨hm, hp, hn⟩
  · have hcut : ¬utf8Marked.CutsMark (Utf8.mark ++ b) := by
      intro h
      have hlen := h.length_lt
      rw [List.length_append] at hlen
      exact absurd hlen (Nat.not_lt_of_le (Nat.le_add_right 3 b.length))
    exact exists_ending_of_next readBy_utf8 hn (fun text => isText_of_mark text b) hl hcut
  · refine ⟨none, [], .stop hr, ?_⟩
    by_cases hnil : bytes = []
    · subst hnil
      exact .whole rfl hl
    · exact .cutMark ⟨rfl, hnil, hne, hp⟩
  · exact exists_ending_of_next readBy_utf8 hn (fun text => isText_of_no_mark hm) hl
      fun h => hp h.2.2.2

theorem exists_ending_of_no_order (name : String) (hm : Utf16.markOrder? bytes = none) :
    ∃ stop text, (Supply.bytes name ⟨.seekingOrder, []⟩ (.ofItems bytes)).Hands stop text ∧
      utf16Marked.Ending bytes stop text := by
  have hcut : ¬utf16Marked.CutsMark bytes := fun h => by cases h.1
  have hlittle := readBy_utf16 .little
  rcases hlittle.front_cases bytes with hs | ⟨c, b, tail, rest, rfl, hsp, hc⟩
  · have hl : ¬utf16Marked.LacksMark bytes := by
      rintro ⟨-, -, c, front, hc, rest, rfl⟩
      obtain ⟨b, tail, rfl, hsp⟩ := spelledBy_utf16 .little c front hc
      exact hsp.not_stuck rest hs
    have hfollows := Decoder.follows_seekingOrder hm hs
    rcases Supply.result_decodeNext_of_stuck (n := 0) name hfollows
      (fun _ hp => hlittle.stuck_front hs hp) (List.nil_append bytes).symm with
      ⟨hr, rfl⟩ | ⟨f, hr, hne⟩
    · exact ⟨none, [], .stop hr, .whole rfl hl⟩
    · refine ⟨some (.undecodable f), [], .stop hr, .broken (fun text' h => ?_) hl hcut⟩
      rw [isText_of_no_order hm] at h
      have hnil : (Encoding.utf16 .little).encodeChars? [] = some [] := rfl
      exact hlittle.ne_of_stuck hnil hs hne text' h
  · have hl : utf16Marked.LacksMark (b :: tail ++ rest) :=
      ⟨rfl, hm, c, _, hc, List.prefix_append _ rest⟩
    have hm' := Utf16.markOrder?_front hm (List.prefix_append (b :: tail) rest)
    have hr : (Supply.decodeNext name ⟨.seekingOrder, []⟩
        (.coming 0 (b :: tail ++ rest))).result = _ :=
      Supply.result_decodeNext_of_no_mark name hsp hm' rfl (List.cons_ne_nil b tail)
    exact ⟨some noMarkFailure, [], .stop hr, .noMark hl⟩

theorem exists_ending_utf16Marked (name : String) (bytes : List UInt8) : ∃ stop text,
    (Supply.bytes name ⟨.seekingOrder, []⟩ (.ofItems bytes)).Hands stop text ∧
      utf16Marked.Ending bytes stop text := by
  cases hm : Utf16.markOrder? bytes with
  | none => exact exists_ending_of_no_order name hm
  | some order =>
    have hcut : ¬utf16Marked.CutsMark bytes := fun h => by cases h.1
    have hl : ¬utf16Marked.LacksMark bytes := fun h => by cases hm.symm.trans h.2.1
    obtain ⟨b, rfl⟩ := Utf16.exists_of_markOrder? hm
    exact exists_ending_of_next (readBy_utf16 order)
      (Supply.decodeNext_seekingOrder_of_mark order 0 b) (fun text => isText_of_order order text b)
      hl hcut

/-- Bytes that come one at a time have one of the four endings, whatever their encoding. -/
theorem exists_ending (he : e ≠ .undefined) (name : String) (bytes : List UInt8) :
    ∃ stop text, (Supply.bytes name (.ofEncoding e) (.ofItems bytes)).Hands stop text ∧
      e.Ending bytes stop text := by
  have hplain {e : Encoding} (hu : e ∈ unmarked) :
      ∃ stop text, (Supply.bytes name (.ofEncoding e) (.ofItems bytes)).Hands stop text ∧
        e.Ending bytes stop text := by
    obtain ⟨codec, hc, hd⟩ := exists_readBy hu
    refine exists_ending_of_next (n := 0) hc (by rw [hd]; rfl) (fun text => isText_of_unmarked hu)
      ?_ ?_
    · rintro ⟨rfl, -⟩
      exact absurd hu (by decide)
    · rintro ⟨rfl, -⟩
      exact absurd hu (by decide)
  match e with
  | .utf8 | .ascii | .latin1 | .utf16 .little | .utf16 .big => exact hplain (by decide)
  | .utf8Marked => exact exists_ending_utf8Marked name bytes
  | .utf16Marked => exact exists_ending_utf16Marked name bytes
  | .undefined => exact absurd rfl he

end Endings

end Encoding
end RpalLexer
