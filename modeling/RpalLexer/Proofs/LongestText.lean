import Mathlib.Data.List.TakeWhile
import RpalLexer.Proofs.CharBytes

/-!
# The longest text in bytes

A codec finds nothing in bytes but what its encoding writes, so any bytes fall into a longest front
that is a text and a rest in front of which no character stands. Main statements: every codec finds
only what its encoding writes (`Encoding.FoundBy`, one lemma for each),
`Encoding.ReadBy.exists_split` and `Encoding.ReadBy.prefix_of_split`.
-/
namespace RpalLexer

theorem toNat_char {n : Nat} (h : n < 0xD800 ∨ 0xDFFF < n ∧ n < 0x110000) :
    (Char.ofNat n).toNat = n := by
  have hc : Char.ofNat n = Char.ofNatAux n h := dif_pos h
  rw [hc]
  rfl

theorem ofNat_eq {b : UInt8} {n : Nat} (h : n = b.toNat) : UInt8.ofNat n = b := by
  rw [h, UInt8.ofNat_toNat]

namespace Utf8

variable {c : Char} {b b₂ : UInt8} {bs : List UInt8} {more n : Nat}

theorem encode_one (h : c.toNat < 0x80) : String.utf8EncodeChar c = [UInt8.ofNat c.toNat] :=
  if_pos (Nat.le_of_lt_succ h)

theorem encode_two (h : 0x80 ≤ c.toNat) (h' : c.toNat < 0x800) :
    String.utf8EncodeChar c =
      [UInt8.ofNat (c.toNat / 64 % 32 + 192), continuation c.toNat] :=
  (if_neg (Nat.not_le_of_lt h)).trans (if_pos (Nat.le_of_lt_succ h'))

theorem encode_three (h : 0x800 ≤ c.toNat) (h' : c.toNat < 0x10000) :
    String.utf8EncodeChar c =
      [UInt8.ofNat (c.toNat / 4096 % 16 + 224), continuation (c.toNat / 64),
        continuation c.toNat] :=
  (if_neg (Nat.not_le_of_lt (Nat.lt_of_lt_of_le (by decide) h))).trans
    ((if_neg (Nat.not_le_of_lt h)).trans (if_pos (Nat.le_of_lt_succ h')))

theorem encode_four (h : 0x10000 ≤ c.toNat) :
    String.utf8EncodeChar c =
      [UInt8.ofNat (c.toNat / 262144 % 8 + 240), continuation (c.toNat / 4096),
        continuation (c.toNat / 64), continuation c.toNat] :=
  (if_neg (Nat.not_le_of_lt (Nat.lt_of_lt_of_le (by decide) h))).trans
    ((if_neg (Nat.not_le_of_lt (Nat.lt_of_lt_of_le (by decide) h))).trans
      (if_neg (Nat.not_le_of_lt h)))

theorem bounds_of_isContinuation (h : isContinuation b = true) :
    0x80 ≤ b.toNat ∧ b.toNat ≤ 0xBF := by
  simp only [isContinuation, UInt8.le_iff_toNat_le, Bool.and_eq_true, decide_eq_true_eq] at h
  exact h

theorem continuation_eq (h : isContinuation b = true) (hn : n % 64 = payload b) :
    continuation n = b := by
  have hb := bounds_of_isContinuation h
  rw [payload] at hn
  exact ofNat_eq (by omega)

theorem bounds_of_isSecond (h : isSecond b b₂ = true) : isContinuation b₂ = true ∧
    (b.toNat = 0xE0 → 0xA0 ≤ b₂.toNat) ∧ (b.toNat = 0xED → b₂.toNat ≤ 0x9F) ∧
      (b.toNat = 0xF0 → 0x90 ≤ b₂.toNat) ∧ (b.toNat = 0xF4 → b₂.toNat ≤ 0x8F) := by
  simp only [isSecond, Bool.and_eq_true, Bool.or_eq_true, bne_iff_ne, decide_eq_true_eq, ne_eq,
    ← UInt8.toNat_inj, UInt8.le_iff_toNat_le] at h
  obtain ⟨⟨⟨⟨hc, h₁⟩, h₂⟩, h₃⟩, h₄⟩ := h
  exact ⟨hc, h₁.neg_resolve_left, h₂.neg_resolve_left, h₃.neg_resolve_left, h₄.neg_resolve_left⟩

def Found (c : Char) (b : UInt8) (bs : List UInt8) (more : Nat) : Prop :=
  ∃ tail rest, bs = tail ++ rest ∧ tail.length = more ∧ String.utf8EncodeChar c = b :: tail

theorem found_one (h : b.toNat < 0x80) : Found (Char.ofNat b.toNat) b bs 0 := by
  have hc : (Char.ofNat b.toNat).toNat = b.toNat := toNat_char (by omega)
  refine ⟨[], bs, rfl, rfl, ?_⟩
  rw [encode_one (by omega), hc, UInt8.ofNat_toNat]

theorem found_two (hb : 0xC2 ≤ b.toNat) (hb' : b.toNat < 0xE0)
    (h : frontOfTwo b bs = .char c more) : Found c b bs more := by
  match bs with
  | [] => cases h
  | b₂ :: rest =>
    rw [frontOfTwo] at h
    cases h₂ : isContinuation b₂ with
    | false => simp [h₂] at h
    | true =>
      simp only [h₂, Bool.not_true, Bool.false_eq_true, if_false, Front.char.injEq] at h
      obtain ⟨rfl, rfl⟩ := h
      have hp : payload b₂ < 64 := Nat.mod_lt _ (by decide)
      generalize hn : b.toNat % 0x20 * 0x40 + payload b₂ = n
      have hc : (Char.ofNat n).toNat = n := toNat_char (by omega)
      refine ⟨[b₂], rest, rfl, rfl, ?_⟩
      rw [encode_two (by omega) (by omega), hc, ofNat_eq (b := b) (by omega),
        continuation_eq h₂ (by omega)]

theorem found_three (hb : 0xE0 ≤ b.toNat) (hb' : b.toNat < 0xF0)
    (h : frontOfThree b bs = .char c more) : Found c b bs more := by
  match bs with
  | [] => cases h
  | [b₂] =>
    rw [frontOfThree] at h
    split_ifs at h
  | b₂ :: b₃ :: rest =>
    rw [frontOfThree] at h
    cases h₂ : isSecond b b₂ with
    | false => simp [h₂] at h
    | true =>
      cases h₃ : isContinuation b₃ with
      | false => simp [h₂, h₃] at h
      | true =>
        simp only [h₂, h₃, Bool.not_true, Bool.false_eq_true, if_false, Front.char.injEq] at h
        obtain ⟨rfl, rfl⟩ := h
        obtain ⟨h₂, hE0, hED, -⟩ := bounds_of_isSecond h₂
        have hr₂ := bounds_of_isContinuation h₂
        have hp₂ : payload b₂ = b₂.toNat % 64 := rfl
        have hp₃ : payload b₃ < 64 := Nat.mod_lt _ (by decide)
        generalize hn : b.toNat % 0x10 * 0x1000 + payload b₂ * 0x40 + payload b₃ = n
        have hc : (Char.ofNat n).toNat = n := toNat_char (by omega)
        refine ⟨[b₂, b₃], rest, rfl, rfl, ?_⟩
        rw [encode_three (by omega) (by omega), hc, ofNat_eq (b := b) (by omega),
          continuation_eq h₂ (by omega), continuation_eq h₃ (by omega)]

theorem found_four (hb : 0xF0 ≤ b.toNat) (hb' : b.toNat < 0xF5)
    (h : frontOfFour b bs = .char c more) : Found c b bs more := by
  match bs with
  | [] => cases h
  | [b₂] =>
    rw [frontOfFour] at h
    split_ifs at h
  | [b₂, b₃] =>
    rw [frontOfFour] at h
    split_ifs at h
  | b₂ :: b₃ :: b₄ :: rest =>
    rw [frontOfFour] at h
    cases h₂ : isSecond b b₂ with
    | false => simp [h₂] at h
    | true =>
      cases h₃ : isContinuation b₃ with
      | false => simp [h₂, h₃] at h
      | true =>
        cases h₄ : isContinuation b₄ with
        | false => simp [h₂, h₃, h₄] at h
        | true =>
          simp only [h₂, h₃, h₄, Bool.not_true, Bool.false_eq_true, if_false,
            Front.char.injEq] at h
          obtain ⟨rfl, rfl⟩ := h
          obtain ⟨h₂, -, -, hF0, hF4⟩ := bounds_of_isSecond h₂
          have hr₂ := bounds_of_isContinuation h₂
          have hp₂ : payload b₂ = b₂.toNat % 64 := rfl
          have hp₃ : payload b₃ < 64 := Nat.mod_lt _ (by decide)
          have hp₄ : payload b₄ < 64 := Nat.mod_lt _ (by decide)
          generalize hn : b.toNat % 0x08 * 0x40000 + payload b₂ * 0x1000 + payload b₃ * 0x40 +
            payload b₄ = n
          have hc : (Char.ofNat n).toNat = n := toNat_char (by omega)
          refine ⟨[b₂, b₃, b₄], rest, rfl, rfl, ?_⟩
          rw [encode_four (by omega), hc, ofNat_eq (b := b) (by omega),
            continuation_eq h₂ (by omega), continuation_eq h₃ (by omega),
            continuation_eq h₄ (by omega)]

theorem found (h : front b bs = .char c more) : Found c b bs more := by
  rw [front_eq] at h
  split_ifs at h with h₁ h₂ h₃ h₄ h₅
  · cases h
    exact found_one h₁
  · exact found_two (by omega) h₃ h
  · exact found_three (by omega) h₄ h
  · exact found_four (by omega) h₅ h

end Utf8

namespace Utf16

variable {order : ByteOrder} {c : Char} {b b₂ b₃ b₄ : UInt8} {bs : List UInt8} {more : Nat}

theorem unit_lt (order : ByteOrder) (b b₂ : UInt8) : unit order b b₂ < 0x10000 := by
  have h := b.toNat_lt
  have h₂ := b₂.toNat_lt
  cases order with
  | little =>
    rw [unit]
    omega
  | big =>
    rw [unit]
    omega

theorem unitBytes_unit (order : ByteOrder) (b b₂ : UInt8) :
    Encoding.unitBytes order (unit order b b₂) = [b, b₂] := by
  have h := b.toNat_lt
  have h₂ := b₂.toNat_lt
  cases order with
  | little =>
    rw [unit, Encoding.unitBytes, ofNat_eq (b := b) (by omega), ofNat_eq (b := b₂) (by omega)]
  | big =>
    rw [unit, Encoding.unitBytes, ofNat_eq (b := b) (by omega), ofNat_eq (b := b₂) (by omega)]

theorem bounds_of_isHigh {n : Nat} (h : isHigh n = true) : 0xD800 ≤ n ∧ n < 0xDC00 := by
  simpa only [isHigh, Bool.and_eq_true, decide_eq_true_eq] using h

theorem bounds_of_isLow {n : Nat} (h : isLow n = true) : 0xDC00 ≤ n ∧ n < 0xE000 := by
  simpa only [isLow, Bool.and_eq_true, decide_eq_true_eq] using h

theorem utf16Bytes_unit (hl : isLow (unit order b b₂) = false)
    (hh : isHigh (unit order b b₂) = false) :
    Encoding.utf16Bytes order (Char.ofNat (unit order b b₂)) = [b, b₂] := by
  have hlt := unit_lt order b b₂
  simp only [isLow, isHigh, Bool.and_eq_false_iff, decide_eq_false_iff_not] at hl hh
  have hc : (Char.ofNat (unit order b b₂)).toNat = unit order b b₂ := toNat_char (by omega)
  rw [Encoding.utf16Bytes, Text.utf16Units, hc, if_pos hlt]
  simpa using unitBytes_unit order b b₂

theorem utf16Bytes_pair (hh : isHigh (unit order b b₂) = true)
    (hl : isLow (unit order b₃ b₄) = true) :
    Encoding.utf16Bytes order (pairChar (unit order b b₂) (unit order b₃ b₄)) =
      [b, b₂, b₃, b₄] := by
  have hu := unitBytes_unit order b b₂
  have hu' := unitBytes_unit order b₃ b₄
  have hh := bounds_of_isHigh hh
  have hl := bounds_of_isLow hl
  generalize unit order b b₂ = high at *
  generalize unit order b₃ b₄ = low at *
  have hc : (pairChar high low).toNat = 0x10000 + (high - 0xD800) * 0x400 + (low - 0xDC00) :=
    toNat_char (by omega)
  have hhigh : 0xD800 + ((pairChar high low).toNat - 0x10000) / 0x400 = high := by omega
  have hlow : 0xDC00 + ((pairChar high low).toNat - 0x10000) % 0x400 = low := by omega
  rw [Encoding.utf16Bytes, Text.utf16Units, if_neg (by omega)]
  simp only [hhigh, hlow, List.flatMap_cons, List.flatMap_nil, hu, hu']
  rfl

theorem found (h : front order b bs = .char c more) :
    ∃ tail rest, bs = tail ++ rest ∧ tail.length = more ∧
      Encoding.utf16Bytes order c = b :: tail := by
  match bs with
  | [] => cases h
  | b₂ :: rest =>
    unfold front at h
    cases hl : isLow (unit order b b₂) with
    | true => simp [hl] at h
    | false =>
      cases hh : isHigh (unit order b b₂) with
      | false =>
        simp only [hl, hh, Bool.not_false, Bool.false_eq_true, if_false, if_true,
          Front.char.injEq] at h
        obtain ⟨rfl, rfl⟩ := h
        exact ⟨[b₂], rest, rfl, rfl, utf16Bytes_unit hl hh⟩
      | true =>
        match rest with
        | [] => simp [hl, hh] at h
        | [b₃] => simp [hl, hh] at h
        | b₃ :: b₄ :: rest =>
          cases hl' : isLow (unit order b₃ b₄) with
          | false => simp [hl, hh, hl'] at h
          | true =>
            simp only [hl, hh, hl', Bool.not_true, Bool.false_eq_true, if_false, if_true,
              Front.char.injEq] at h
            obtain ⟨rfl, rfl⟩ := h
            exact ⟨[b₂, b₃, b₄], rest, rfl, rfl, utf16Bytes_pair hh hl'⟩

end Utf16

namespace Encoding

def FoundBy (e : Encoding) (codec : Codec) : Prop :=
  ∀ b bs c more, codec.front b bs = .char c more →
    ∃ tail rest, bs = tail ++ rest ∧ tail.length = more ∧ e.encodeChar? c = some (b :: tail)

theorem foundBy_utf8 : FoundBy .utf8 Utf8.codec := by
  intro b bs c more h
  obtain ⟨tail, rest, hbs, hm, hc⟩ := Utf8.found h
  exact ⟨tail, rest, hbs, hm, congrArg some hc⟩

theorem foundBy_utf16 (order : ByteOrder) : FoundBy (.utf16 order) (Utf16.codec order) := by
  intro b bs c more h
  obtain ⟨tail, rest, hbs, hm, hc⟩ := Utf16.found h
  exact ⟨tail, rest, hbs, hm, congrArg some hc⟩

theorem foundBy_ascii : FoundBy .ascii Codec.ascii := by
  intro b bs c more h
  simp only [Codec.ascii, UInt8.lt_iff_toNat_lt] at h
  split_ifs at h with hb
  have hb : b.toNat < 0x80 := hb
  cases h
  refine ⟨[], bs, rfl, rfl, ?_⟩
  rw [encodeChar?, toNat_char (by omega), if_pos hb, UInt8.ofNat_toNat]

theorem foundBy_latin1 : FoundBy .latin1 Codec.latin1 := by
  intro b bs c more h
  have hb := b.toNat_lt
  cases h
  refine ⟨[], bs, rfl, rfl, ?_⟩
  rw [encodeChar?, toNat_char (by omega), if_pos hb, UInt8.ofNat_toNat]

/-- The codec reads what the encoding writes, and nothing else. -/
structure ReadBy (e : Encoding) (codec : Codec) : Prop where
  spelled : e.SpelledBy codec
  found : e.FoundBy codec

theorem readBy_utf8 : ReadBy .utf8 Utf8.codec := ⟨spelledBy_utf8, foundBy_utf8⟩

theorem readBy_utf16 (order : ByteOrder) : ReadBy (.utf16 order) (Utf16.codec order) :=
  ⟨spelledBy_utf16 order, foundBy_utf16 order⟩

theorem readBy_ascii : ReadBy .ascii Codec.ascii := ⟨spelledBy_ascii, foundBy_ascii⟩

theorem readBy_latin1 : ReadBy .latin1 Codec.latin1 := ⟨spelledBy_latin1, foundBy_latin1⟩

end Encoding

def Codec.Stuck (codec : Codec) (bytes : List UInt8) : Prop :=
  ∀ b bs, bytes = b :: bs → ∀ c more, codec.front b bs ≠ .char c more

namespace Codec

variable {codec : Codec} {c : Char} {cs : List Char} {b : UInt8} {tail bytes : List UInt8}

theorem stuck_nil (codec : Codec) : codec.Stuck [] := fun _ _ h => by cases h

theorem Spells.not_stuck (h : codec.Spells c b tail) (rest : List UInt8) :
    ¬codec.Stuck (b :: tail ++ rest) :=
  fun hs => hs b (tail ++ rest) rfl c tail.length (h.whole rest)

theorem Stuck.decodeFrom_final (hs : codec.Stuck bytes) (hne : bytes ≠ []) (data : List UInt8)
    (start : Nat) : ∃ f, codec.decodeFrom true data start bytes = .error f := by
  obtain ⟨b, bs, rfl⟩ := List.exists_cons_of_ne_nil hne
  rw [decodeFrom]
  cases hf : codec.front b bs with
  | char c more => exact absurd hf (hs b bs rfl c more)
  | partly more reason => exact ⟨_, rfl⟩
  | wrong more reason => exact ⟨_, rfl⟩

theorem Stuck.decodeFrom_cases (hs : codec.Stuck bytes) (data : List UInt8) (start : Nat) :
    codec.decodeFrom false data start bytes = .ok ⟨[], bytes⟩ ∨
      ∃ f, codec.decodeFrom false data start bytes = .error f := by
  cases bytes with
  | nil => exact Or.inl (by rw [decodeFrom])
  | cons b bs =>
    rw [decodeFrom]
    cases hf : codec.front b bs with
    | char c more => exact absurd hf (hs b bs rfl c more)
    | partly more reason => exact Or.inl rfl
    | wrong more reason => exact Or.inr ⟨_, rfl⟩

end Codec

namespace Encoding.ReadBy

variable {e : Encoding} {codec : Codec} {c : Char} {text text' : List Char} {b : UInt8}
  {bytes valid valid' rest x : List UInt8}

theorem front_cases (h : e.ReadBy codec) (bytes : List UInt8) : codec.Stuck bytes ∨
    ∃ c b tail rest, bytes = b :: tail ++ rest ∧ codec.Spells c b tail ∧
      e.encodeChar? c = some (b :: tail) := by
  by_cases hs : codec.Stuck bytes
  · exact Or.inl hs
  · right
    simp only [Codec.Stuck, ne_eq, not_forall, not_not] at hs
    obtain ⟨b, bs, rfl, c, more, hf⟩ := hs
    obtain ⟨tail, rest, rfl, -, hc⟩ := h.found b bs c more hf
    obtain ⟨b', tail', heq, hsp⟩ := h.spelled c _ hc
    cases heq
    exact ⟨c, b, tail, rest, rfl, hsp, hc⟩

theorem stuck_front (h : e.ReadBy codec) (hs : codec.Stuck bytes) (hp : x <+: bytes) :
    codec.Stuck x := by
  rcases h.front_cases x with hx | ⟨c, b, tail, rest, rfl, hsp, -⟩
  · exact hx
  · obtain ⟨y, rfl⟩ := hp
    rw [List.append_assoc] at hs
    exact absurd hs (hsp.not_stuck (rest ++ y))

theorem exists_split (h : e.ReadBy codec) (bytes : List UInt8) : ∃ text valid rest,
    bytes = valid ++ rest ∧ e.encodeChars? text = some valid ∧ codec.Stuck rest := by
  induction hl : bytes.length using Nat.strong_induction_on generalizing bytes with
  | _ l ih =>
    rcases h.front_cases bytes with hs | ⟨c, b, tail, back, rfl, -, hc⟩
    · exact ⟨[], [], bytes, rfl, rfl, hs⟩
    · have hlt : back.length < l := by
        rw [← hl, List.length_append]
        exact Nat.lt_add_of_pos_left (Nat.zero_lt_succ tail.length)
      obtain ⟨text, valid, rest, rfl, ht, hs⟩ := ih back.length hlt back rfl
      refine ⟨c :: text, b :: tail ++ valid, rest, (List.append_assoc _ _ _).symm, ?_, hs⟩
      simp only [encodeChars?, hc, ht]

theorem encodes (h : e.ReadBy codec) (ht : e.encodeChars? text = some valid) :
    codec.Encodes text valid :=
  h.spelled.encodes ht

theorem exists_spells (h : e.ReadBy codec) (hc : e.encodeChars? [c] = some bytes) :
    ∃ b tail, bytes = b :: tail ∧ codec.Spells c b tail := by
  have hc := h.encodes hc
  generalize hcs : [c] = cs at hc
  cases hc with
  | nil => cases hcs
  | @cons c' cs b tail rest hsp hnil =>
    cases hcs
    cases hnil
    exact ⟨b, tail, List.append_nil (b :: tail), hsp⟩

theorem prefix_of_encodes (hv : codec.Encodes text valid) (hs : codec.Stuck rest)
    (hv' : codec.Encodes text' valid') (hp : valid' <+: valid ++ rest) :
    text' <+: text ∧ valid' <+: valid := by
  induction hv generalizing text' valid' with
  | nil =>
    cases hv' with
    | nil => exact ⟨List.prefix_refl [], List.prefix_refl []⟩
    | @cons c cs b tail bytes hc hcs =>
      obtain ⟨y, hy⟩ := hp
      rw [List.nil_append] at hy
      subst hy
      rw [List.append_assoc] at hs
      exact absurd hs (hc.not_stuck _)
  | @cons c cs b tail bytes hc hcs ih =>
    cases hv' with
    | nil => exact ⟨List.nil_prefix, List.nil_prefix⟩
    | @cons c' cs' b' tail' bytes' hc' hcs' =>
      obtain ⟨y, hy⟩ := hp
      rw [List.cons_append, List.cons_append, List.cons_append, List.cons_append,
        List.cons.injEq] at hy
      obtain ⟨rfl, hy⟩ := hy
      rw [List.append_assoc, List.append_assoc] at hy
      -- Both characters are what the codec finds there, so they take as many bytes.
      have hfront := (hc'.whole (bytes' ++ y)).symm.trans (hy ▸ hc.whole (bytes ++ rest))
      obtain ⟨rfl, hlen⟩ := Front.char.inj hfront
      obtain ⟨rfl, hrest⟩ := List.append_inj hy hlen
      obtain ⟨ht, hb⟩ := ih hcs' ⟨y, hrest⟩
      exact ⟨(List.prefix_cons_inj c').2 ht, (List.prefix_append_right_inj _).2 hb⟩

theorem prefix_of_split (h : e.ReadBy codec) (ht : e.encodeChars? text = some valid)
    (hs : codec.Stuck rest) (ht' : e.encodeChars? text' = some valid')
    (hp : valid' <+: valid ++ rest) : valid' <+: valid :=
  (prefix_of_encodes (h.encodes ht) hs (h.encodes ht') hp).2

theorem text_unique (h : e.ReadBy codec) (ht : e.encodeChars? text = some bytes)
    (ht' : e.encodeChars? text' = some bytes) : text' = text := by
  have hs := codec.stuck_nil
  have hp : bytes <+: bytes ++ [] := List.prefix_append bytes []
  have hle := (prefix_of_encodes (h.encodes ht) hs (h.encodes ht') hp).1
  have hge := (prefix_of_encodes (h.encodes ht') hs (h.encodes ht) hp).1
  exact hle.eq_of_length (Nat.le_antisymm hle.length_le hge.length_le)

theorem ne_of_stuck (h : e.ReadBy codec) (ht : e.encodeChars? text = some valid)
    (hs : codec.Stuck rest) (hne : rest ≠ []) (text' : List Char) :
    e.encodeChars? text' ≠ some (valid ++ rest) := by
  intro ht'
  have hle := (h.prefix_of_split ht hs ht' (List.prefix_refl _)).length_le
  rw [List.length_append] at hle
  have hpos := List.length_pos_iff.2 hne
  omega

end Encoding.ReadBy
end RpalLexer
