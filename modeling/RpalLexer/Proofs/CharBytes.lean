import RpalLexer.Encoding.Decoder
import RpalLexer.Encoding.Encode

/-!
# Characters in bytes

The bytes of a character as a codec sees them: whole, it finds the character whatever follows; cut
short, it waits. Any front of a text in such bytes decodes to the characters that are complete in
it. Main statements: every codec reads what its encoding writes (`Encoding.SpelledBy`, one lemma for
each), and `Codec.Encodes.decodeFrom`.
-/
namespace RpalLexer

namespace Codec

variable {codec : Codec} {c : Char} {cs : List Char} {b : UInt8} {x y tail bytes : List UInt8}

/-- The bytes of one character: found whole whatever follows, and undecided while some of them are
missing. -/
structure Spells (codec : Codec) (c : Char) (b : UInt8) (tail : List UInt8) : Prop where
  whole : ∀ rest, codec.front b (tail ++ rest) = .char c tail.length
  partly : ∀ n < tail.length, ∃ more reason, codec.front b (tail.take n) = .partly more reason

inductive Encodes (codec : Codec) : List Char → List UInt8 → Prop
  | nil : Encodes codec [] []
  | cons {c : Char} {cs : List Char} {b : UInt8} {tail bytes : List UInt8}
      (h : codec.Spells c b tail) (hs : Encodes codec cs bytes) :
      Encodes codec (c :: cs) (b :: tail ++ bytes)

theorem Encodes.eq_nil (h : codec.Encodes cs []) : cs = [] := by
  cases h
  rfl

theorem Encodes.front (h : codec.Encodes cs (b :: bytes)) :
    ∃ c more, cs.head? = some c ∧ codec.front b bytes = .char c more := by
  generalize hb : b :: bytes = all at h
  cases h with
  | nil => cases hb
  | cons hc hs =>
    cases hb
    exact ⟨_, _, rfl, hc.whole _⟩

theorem Spells.decodeFrom_append (h : codec.Spells c b tail) {final : Bool}
    {data rest : List UInt8} {start : Nat} {d : Decoded}
    (hd : codec.decodeFrom final data (start + 1 + tail.length) rest = .ok d) :
    codec.decodeFrom final data start (b :: tail ++ rest) = .ok ⟨c :: d.chars, d.rest⟩ := by
  rw [List.cons_append, decodeFrom]
  simp only [h.whole rest, List.drop_left, hd]

theorem Spells.decodeFrom_of_missing {missing : List UInt8} (h : codec.Spells c b (x ++ missing))
    (hm : missing ≠ []) (data : List UInt8) (start : Nat) :
    codec.decodeFrom false data start (b :: x) = .ok ⟨[], b :: x⟩ := by
  obtain ⟨more, reason, hf⟩ := h.partly x.length (by simpa using List.length_pos_iff.2 hm)
  rw [List.take_left] at hf
  rw [decodeFrom]
  simp only [hf, Bool.false_eq_true, if_false]

theorem Encodes.decodeFrom (h : codec.Encodes cs (x ++ y)) (data : List UInt8) (start : Nat) :
    ∃ given left rest, codec.decodeFrom false data start x = .ok ⟨given, rest⟩ ∧
      cs = given ++ left ∧ codec.Encodes left (rest ++ y) ∧ (y = [] → rest = []) := by
  generalize hb : x ++ y = bytes at h
  induction h generalizing x start with
  | nil =>
    obtain ⟨rfl, rfl⟩ := List.append_eq_nil_iff.1 hb
    refine ⟨[], [], [], ?_, rfl, .nil, fun _ => rfl⟩
    rw [Codec.decodeFrom]
  | @cons c cs b tail bytes hc hs ih =>
    cases x with
    | nil =>
      rw [List.nil_append] at hb
      refine ⟨[], c :: cs, [], ?_, rfl, ?_, fun _ => rfl⟩
      · rw [Codec.decodeFrom]
      · rw [List.nil_append, hb]
        exact .cons hc hs
    | cons b' x =>
      rw [List.cons_append, List.cons_append, List.cons.injEq] at hb
      obtain ⟨rfl, hb⟩ := hb
      -- The bytes that came end within the first character, or that character is complete.
      rcases List.append_eq_append_iff.1 hb with ⟨missing, rfl, rfl⟩ | ⟨x', rfl, rfl⟩
      · by_cases hm : missing = []
        · subst hm
          obtain ⟨given, left, rest, hd, rfl, hl, hr⟩ := ih (start + 1 + x.length) (x := []) rfl
          refine ⟨c :: given, left, rest, ?_, rfl, hl, hr⟩
          rw [List.append_nil] at hc
          simpa using hc.decodeFrom_append hd
        · refine ⟨[], c :: cs, b' :: x, hc.decodeFrom_of_missing hm data start, rfl, ?_, ?_⟩
          · simpa using Encodes.cons hc hs
          · exact fun hy => absurd (List.append_eq_nil_iff.1 hy).1 hm
      · obtain ⟨given, left, rest, hd, rfl, hl, hr⟩ := ih (start + 1 + tail.length) (x := x') rfl
        exact ⟨c :: given, left, rest, hc.decodeFrom_append hd, rfl, hl, hr⟩

end Codec

theorem toNat_ofNat_of_lt {n : Nat} (h : n < 0x100) : (UInt8.ofNat n).toNat = n :=
  UInt8.toNat_ofNat_of_lt' h

theorem toNat_valid (c : Char) :
    c.toNat < 0xD800 ∨ 0xDFFF < c.toNat ∧ c.toNat < 0x110000 := c.valid

namespace Utf8

variable {c : Char} {b b₂ : UInt8}

def continuation (n : Nat) : UInt8 := UInt8.ofNat (n % 64 + 128)

theorem toNat_continuation (n : Nat) : (continuation n).toNat = n % 64 + 128 :=
  toNat_ofNat_of_lt (by omega)

@[simp] theorem isContinuation_continuation (n : Nat) : isContinuation (continuation n) = true := by
  simp only [isContinuation, UInt8.le_iff_toNat_le, toNat_continuation, Bool.and_eq_true,
    decide_eq_true_eq]
  exact ⟨Nat.le_add_left 128 (n % 64), Nat.add_le_add_right (m := 63) (by omega) 128⟩

@[simp] theorem payload_continuation (n : Nat) : payload (continuation n) = n % 64 := by
  rw [payload, toNat_continuation]
  omega

theorem front_eq (b : UInt8) (bs : List UInt8) :
    front b bs =
      if b.toNat < 0x80 then .char (Char.ofNat b.toNat) 0
      else if b.toNat < 0xC2 then .wrong 0 .invalidStart
      else if b.toNat < 0xE0 then frontOfTwo b bs
      else if b.toNat < 0xF0 then frontOfThree b bs
      else if b.toNat < 0xF5 then frontOfFour b bs
      else .wrong 0 .invalidStart := by
  simp only [front, UInt8.lt_iff_toNat_lt]
  rfl

theorem front_of_two (hb : 0xC2 ≤ b.toNat) (hb' : b.toNat < 0xE0) (bs : List UInt8) :
    front b bs = frontOfTwo b bs := by
  rw [front_eq, if_neg (by omega), if_neg (by omega), if_pos hb']

theorem front_of_three (hb : 0xE0 ≤ b.toNat) (hb' : b.toNat < 0xF0) (bs : List UInt8) :
    front b bs = frontOfThree b bs := by
  rw [front_eq, if_neg (by omega), if_neg (by omega), if_neg (by omega), if_pos hb']

theorem front_of_four (hb : 0xF0 ≤ b.toNat) (hb' : b.toNat < 0xF5) (bs : List UInt8) :
    front b bs = frontOfFour b bs := by
  rw [front_eq, if_neg (by omega), if_neg (by omega), if_neg (by omega), if_neg (by omega),
    if_pos hb']

theorem isSecond_of (hc : isContinuation b₂ = true) (h₁ : b.toNat = 0xE0 → 0xA0 ≤ b₂.toNat)
    (h₂ : b.toNat = 0xED → b₂.toNat ≤ 0x9F) (h₃ : b.toNat = 0xF0 → 0x90 ≤ b₂.toNat)
    (h₄ : b.toNat = 0xF4 → b₂.toNat ≤ 0x8F) : isSecond b b₂ = true := by
  simp only [isSecond, hc, Bool.true_and, Bool.and_eq_true, Bool.or_eq_true, bne_iff_ne,
    decide_eq_true_eq, ne_eq, ← UInt8.toNat_inj, UInt8.le_iff_toNat_le]
  exact ⟨⟨⟨Decidable.not_or_of_imp h₁, Decidable.not_or_of_imp h₂⟩,
    Decidable.not_or_of_imp h₃⟩, Decidable.not_or_of_imp h₄⟩

theorem isSurrogate_of (h : b.toNat = 0xED → b₂.toNat ≤ 0x9F) : isSurrogate b b₂ = false := by
  rw [isSurrogate, Bool.eq_false_iff]
  simp only [ne_eq, Bool.and_eq_true, beq_iff_eq, decide_eq_true_eq, ← UInt8.toNat_inj,
    UInt8.le_iff_toNat_le]
  rintro ⟨⟨hb, hle⟩, -⟩
  have := h hb
  have hle : 0xA0 ≤ b₂.toNat := hle
  omega

theorem spells_one (h : c.toNat < 0x80) : codec.Spells c (UInt8.ofNat c.toNat) [] where
  whole rest := by
    have hb : (UInt8.ofNat c.toNat).toNat = c.toNat := toNat_ofNat_of_lt (by omega)
    simp only [codec, front_eq, hb]
    rw [if_pos h, Char.ofNat_toNat]
    rfl
  partly := by simp

theorem spells_two (h : 0x80 ≤ c.toNat) (h' : c.toNat < 0x800) :
    codec.Spells c (UInt8.ofNat (c.toNat / 64 % 32 + 192)) [continuation c.toNat] := by
  generalize hb : UInt8.ofNat (c.toNat / 64 % 32 + 192) = b
  have hb : b.toNat = c.toNat / 64 % 32 + 192 := hb ▸ toNat_ofNat_of_lt (by omega)
  have hf := front_of_two (b := b) (by omega) (by omega)
  refine ⟨fun rest => ?_, fun n hn => ?_⟩
  · have hc : b.toNat % 0x20 * 0x40 + c.toNat % 64 = c.toNat := by omega
    simp [codec, hf, frontOfTwo, hc]
  · obtain rfl : n = 0 := by simpa using hn
    exact ⟨0, .unexpectedEnd, hf []⟩

theorem spells_three (h : 0x800 ≤ c.toNat) (h' : c.toNat < 0x10000) :
    codec.Spells c (UInt8.ofNat (c.toNat / 4096 % 16 + 224))
      [continuation (c.toNat / 64), continuation c.toNat] := by
  have hv := toNat_valid c
  generalize hb : UInt8.ofNat (c.toNat / 4096 % 16 + 224) = b
  have hb : b.toNat = c.toNat / 4096 % 16 + 224 := hb ▸ toNat_ofNat_of_lt (by omega)
  have hb₂ : (continuation (c.toNat / 64)).toNat = c.toNat / 64 % 64 + 128 :=
    toNat_continuation _
  have hs : isSecond b (continuation (c.toNat / 64)) = true :=
    isSecond_of (isContinuation_continuation _) (by omega) (by omega) (by omega) (by omega)
  have hf := front_of_three (b := b) (by omega) (by omega)
  refine ⟨fun rest => ?_, fun n hn => ?_⟩
  · have hc : b.toNat % 0x10 * 0x1000 + c.toNat / 64 % 64 * 0x40 + c.toNat % 64 = c.toNat := by
      omega
    simp [codec, hf, frontOfThree, hs, hc]
  · have hsur : isSurrogate b (continuation (c.toNat / 64)) = false := isSurrogate_of (by omega)
    have hn : n < 2 := hn
    obtain rfl | rfl : n = 0 ∨ n = 1 := by omega
    · exact ⟨0, .unexpectedEnd, hf []⟩
    · exact ⟨1, .unexpectedEnd, by simp [codec, hf, frontOfThree, hsur, hs]⟩

theorem spells_four (h : 0x10000 ≤ c.toNat) :
    codec.Spells c (UInt8.ofNat (c.toNat / 262144 % 8 + 240))
      [continuation (c.toNat / 4096), continuation (c.toNat / 64), continuation c.toNat] := by
  have hv := toNat_valid c
  generalize hb : UInt8.ofNat (c.toNat / 262144 % 8 + 240) = b
  have hb : b.toNat = c.toNat / 262144 % 8 + 240 := hb ▸ toNat_ofNat_of_lt (by omega)
  have hb₂ : (continuation (c.toNat / 4096)).toNat = c.toNat / 4096 % 64 + 128 :=
    toNat_continuation _
  have hs : isSecond b (continuation (c.toNat / 4096)) = true :=
    isSecond_of (isContinuation_continuation _) (by omega) (by omega) (by omega) (by omega)
  have hf := front_of_four (b := b) (by omega) (by omega)
  refine ⟨fun rest => ?_, fun n hn => ?_⟩
  · have hc : b.toNat % 0x08 * 0x40000 + c.toNat / 4096 % 64 * 0x1000 +
        c.toNat / 64 % 64 * 0x40 + c.toNat % 64 = c.toNat := by omega
    simp [codec, hf, frontOfFour, hs, hc]
  · have hn : n < 3 := hn
    obtain rfl | rfl | rfl : n = 0 ∨ n = 1 ∨ n = 2 := by omega
    · exact ⟨0, .unexpectedEnd, hf []⟩
    · exact ⟨1, .unexpectedEnd, by simp [codec, hf, frontOfFour, hs]⟩
    · exact ⟨2, .unexpectedEnd, by simp [codec, hf, frontOfFour, hs]⟩

theorem exists_spells (c : Char) :
    ∃ b tail, String.utf8EncodeChar c = b :: tail ∧ codec.Spells c b tail := by
  have hc : c.val.toNat = c.toNat := rfl
  unfold String.utf8EncodeChar
  simp only [hc]
  by_cases h₁ : c.toNat ≤ 0x7f
  · exact ⟨_, _, if_pos h₁, spells_one (by omega)⟩
  rw [if_neg h₁]
  by_cases h₂ : c.toNat ≤ 0x7ff
  · exact ⟨_, _, if_pos h₂, spells_two (by omega) (by omega)⟩
  rw [if_neg h₂]
  by_cases h₃ : c.toNat ≤ 0xffff
  · exact ⟨_, _, if_pos h₃, spells_three (by omega) (by omega)⟩
  rw [if_neg h₃]
  exact ⟨_, _, rfl, spells_four (by omega)⟩

end Utf8

namespace Utf16

variable {order : ByteOrder} {c : Char} {n : Nat}

theorem exists_unitBytes (order : ByteOrder) (h : n < 0x10000) :
    ∃ b₁ b₂, Encoding.unitBytes order n = [b₁, b₂] ∧ unit order b₁ b₂ = n := by
  have hhigh : (UInt8.ofNat (n / 0x100)).toNat = n / 0x100 := toNat_ofNat_of_lt (by omega)
  have hlow : (UInt8.ofNat (n % 0x100)).toNat = n % 0x100 := toNat_ofNat_of_lt (by omega)
  cases order with
  | little =>
    refine ⟨_, _, rfl, ?_⟩
    rw [unit, hhigh, hlow]
    omega
  | big =>
    refine ⟨_, _, rfl, ?_⟩
    rw [unit, hhigh, hlow]
    omega

theorem not_isLow (h : n < 0xDC00 ∨ 0xE000 ≤ n) : isLow n = false := by
  simp only [isLow, Bool.and_eq_false_iff, decide_eq_false_iff_not]
  omega

theorem not_isHigh (h : n < 0xD800 ∨ 0xDC00 ≤ n) : isHigh n = false := by
  simp only [isHigh, Bool.and_eq_false_iff, decide_eq_false_iff_not]
  omega

theorem isLow_of (h : 0xDC00 ≤ n) (h' : n < 0xE000) : isLow n = true := by
  simp only [isLow, Bool.and_eq_true, decide_eq_true_eq]
  omega

theorem isHigh_of (h : 0xD800 ≤ n) (h' : n < 0xDC00) : isHigh n = true := by
  simp only [isHigh, Bool.and_eq_true, decide_eq_true_eq]
  omega

theorem spells_unit {b₁ b₂ : UInt8} (hu : unit order b₁ b₂ = c.toNat) :
    (codec order).Spells c b₁ [b₂] := by
  have hv := toNat_valid c
  refine ⟨fun rest => ?_, fun n hn => ?_⟩
  · simp [codec, front, hu, not_isLow (n := c.toNat) (by omega),
      not_isHigh (n := c.toNat) (by omega)]
  · obtain rfl : n = 0 := by simpa using hn
    exact ⟨0, .truncated, rfl⟩

theorem spells_pair {b₁ b₂ b₃ b₄ : UInt8} (h : 0x10000 ≤ c.toNat)
    (hu : unit order b₁ b₂ = 0xD800 + (c.toNat - 0x10000) / 0x400)
    (hu' : unit order b₃ b₄ = 0xDC00 + (c.toNat - 0x10000) % 0x400) :
    (codec order).Spells c b₁ [b₂, b₃, b₄] := by
  have hv := toNat_valid c
  have hlow := not_isLow (n := 0xD800 + (c.toNat - 0x10000) / 0x400) (by omega)
  have hhigh := isHigh_of (n := 0xD800 + (c.toNat - 0x10000) / 0x400) (by omega) (by omega)
  have hlow' := isLow_of (n := 0xDC00 + (c.toNat - 0x10000) % 0x400) (by omega) (by omega)
  refine ⟨fun rest => ?_, fun n hn => ?_⟩
  · have hc : 0x10000 + (0xD800 + (c.toNat - 0x10000) / 0x400 - 0xD800) * 0x400 +
        (0xDC00 + (c.toNat - 0x10000) % 0x400 - 0xDC00) = c.toNat := by omega
    simp only [codec, front, List.cons_append, List.nil_append, hu, hu', hlow, hhigh, hlow',
      pairChar, hc, Char.ofNat_toNat]
    rfl
  · have hn : n < 3 := hn
    obtain rfl | rfl | rfl : n = 0 ∨ n = 1 ∨ n = 2 := by omega
    · exact ⟨0, .truncated, rfl⟩
    · exact ⟨1, .unexpectedEnd, by simp [codec, front, hu, hlow, hhigh]⟩
    · exact ⟨2, .unexpectedEnd, by simp [codec, front, hu, hlow, hhigh]⟩

theorem exists_spells (order : ByteOrder) (c : Char) :
    ∃ b tail, Encoding.utf16Bytes order c = b :: tail ∧ (codec order).Spells c b tail := by
  have hv := toNat_valid c
  unfold Encoding.utf16Bytes Text.utf16Units
  by_cases h : c.toNat < 0x10000
  · obtain ⟨b₁, b₂, hb, hu⟩ := exists_unitBytes order h
    refine ⟨b₁, [b₂], ?_, spells_unit hu⟩
    simp [h, hb]
  · have hh : 0xD800 + (c.toNat - 0x10000) / 0x400 < 0x10000 := by omega
    have hl : 0xDC00 + (c.toNat - 0x10000) % 0x400 < 0x10000 := by omega
    obtain ⟨b₁, b₂, hb, hu⟩ := exists_unitBytes order hh
    obtain ⟨b₃, b₄, hb', hu'⟩ := exists_unitBytes order hl
    refine ⟨b₁, [b₂, b₃, b₄], ?_, spells_pair (by omega) hu hu'⟩
    simp [h, hb, hb']

end Utf16

namespace Encoding

def SpelledBy (e : Encoding) (codec : Codec) : Prop :=
  ∀ c bytes, e.encodeChar? c = some bytes → ∃ b tail, bytes = b :: tail ∧ codec.Spells c b tail

theorem spelledBy_utf8 : SpelledBy .utf8 Utf8.codec := by
  intro c bytes h
  cases h
  exact Utf8.exists_spells c

theorem spelledBy_utf16 (order : ByteOrder) : SpelledBy (.utf16 order) (Utf16.codec order) := by
  intro c bytes h
  cases h
  exact Utf16.exists_spells order c

theorem spelledBy_ascii : SpelledBy .ascii Codec.ascii := by
  intro c bytes h
  simp only [encodeChar?, Option.ite_none_right_eq_some, Option.some.injEq] at h
  obtain ⟨hc, rfl⟩ := h
  have hb : (UInt8.ofNat c.toNat).toNat = c.toNat := toNat_ofNat_of_lt (by omega)
  have hlt : UInt8.ofNat c.toNat < 0x80 := by
    rw [UInt8.lt_iff_toNat_lt, hb]
    exact hc
  refine ⟨_, [], rfl, fun rest => ?_, by simp⟩
  simp only [Codec.ascii, if_pos hlt, hb, Char.ofNat_toNat]
  rfl

theorem spelledBy_latin1 : SpelledBy .latin1 Codec.latin1 := by
  intro c bytes h
  simp only [encodeChar?, Option.ite_none_right_eq_some, Option.some.injEq] at h
  obtain ⟨hc, rfl⟩ := h
  refine ⟨_, [], rfl, fun rest => ?_, by simp⟩
  simp only [Codec.latin1, toNat_ofNat_of_lt hc, Char.ofNat_toNat]
  rfl

theorem SpelledBy.encodes {e : Encoding} {codec : Codec} (he : e.SpelledBy codec)
    {text : List Char} {bytes : List UInt8} (h : e.encodeChars? text = some bytes) :
    codec.Encodes text bytes := by
  induction text generalizing bytes with
  | nil =>
    cases h
    exact .nil
  | cons c cs ih =>
    cases hc : e.encodeChar? c with
    | none => simp [encodeChars?, hc] at h
    | some front =>
      cases hcs : e.encodeChars? cs with
      | none => simp [encodeChars?, hc, hcs] at h
      | some back =>
        simp only [encodeChars?, hc, hcs, Option.some.injEq] at h
        subst h
        obtain ⟨b, tail, rfl, hs⟩ := he c front hc
        exact .cons hs (ih hcs)

end Encoding
end RpalLexer
