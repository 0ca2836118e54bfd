import RpalLexer.Encoding.Utf16
import RpalLexer.Encoding.Utf8
import RpalLexer.Step

/-!
# Incremental decoders

A decoder is fed the bytes of a stream piece by piece and keeps those that do not make a character
yet. Where it fails it delivers nothing of the piece and forgets it.
-/
namespace RpalLexer

/-- How far a decoder has got with the start of its input. A `plain` one has nothing to find out
there; a `seekingMark` one may still drop a mark of UTF-8, and a `seekingOrder` one waits for the
mark that tells the byte order of UTF-16; a `refusing` one decodes nothing. -/
inductive DecoderMode where
  | plain (codec : Codec)
  | seekingMark
  | seekingOrder
  | refusing

structure Decoder where
  mode : DecoderMode
  held : List UInt8 := []

namespace Decoder

def ofEncoding : Encoding → Decoder
  | .utf8 => ⟨.plain Utf8.codec, []⟩
  | .utf8Marked => ⟨.seekingMark, []⟩
  | .ascii => ⟨.plain Codec.ascii, []⟩
  | .latin1 => ⟨.plain Codec.latin1, []⟩
  | .utf16 order => ⟨.plain (Utf16.codec order), []⟩
  | .utf16Marked => ⟨.seekingOrder, []⟩
  | .undefined => ⟨.refusing, []⟩

def settle (mode : DecoderMode) (before : List UInt8) : Except DecodeFailure Decoded →
    Step Failure Decoder (List Char)
  | .ok d => ⟨.ok d.chars, ⟨mode, d.rest⟩⟩
  | .error f => ⟨.error (.undecodable f), ⟨mode, before⟩⟩

/-- Looks for the mark at the start. Fewer than three bytes that could begin it are held, also
where the input ends; after the mark, positions count anew. -/
def feedSeekingMark (final : Bool) (before data : List UInt8) :
    Step Failure Decoder (List Char) :=
  if data.length < 3 && data.isPrefixOf Utf8.mark then ⟨.ok [], ⟨.seekingMark, data⟩⟩
  else if Utf8.mark.isPrefixOf data then
    settle (.plain Utf8.codec) before (Utf8.codec.decode final (data.drop 3))
  else settle (.plain Utf8.codec) before (Utf8.codec.decode final data)

/-- Looks for the mark that gives the byte order. Without one the bytes are tried as little-endian,
but a character found that way is refused. -/
def feedSeekingOrder (final : Bool) (before data : List UInt8) :
    Step Failure Decoder (List Char) :=
  match Utf16.markOrder? data with
  | some order =>
    match (Utf16.codec order).decodeFrom final data 2 (data.drop 2) with
    | .ok d => ⟨.ok d.chars, ⟨.plain (Utf16.codec order), d.rest⟩⟩
    | .error f => ⟨.error (.undecodable f), ⟨.seekingOrder, before⟩⟩
  | none =>
    match (Utf16.codec .little).decode final data with
    | .ok ⟨[], rest⟩ => ⟨.ok [], ⟨.seekingOrder, rest⟩⟩
    | .ok _ =>
      ⟨.error (.plain .badText "UTF-16 stream does not start with BOM"), ⟨.seekingOrder, before⟩⟩
    | .error f => ⟨.error (.undecodable f), ⟨.seekingOrder, before⟩⟩

def feed (d : Decoder) (final : Bool) (piece : List UInt8) : Step Failure Decoder (List Char) :=
  let data := d.held ++ piece
  match d.mode with
  | .plain codec => settle (.plain codec) d.held (codec.decode final data)
  | .seekingMark => feedSeekingMark final d.held data
  | .seekingOrder => feedSeekingOrder final d.held data
  | .refusing => ⟨.error (.plain .badText "undefined encoding"), d⟩

theorem length_settle {mode : DecoderMode} {before data : List UInt8}
    {e : Except DecodeFailure Decoded}
    (h : ∀ d, e = .ok d → d.chars.length + d.rest.length ≤ data.length) {cs : List Char}
    (hr : (settle mode before e).result = .ok cs) :
    cs.length + (settle mode before e).state.held.length ≤ data.length := by
  cases e with
  | error f => simp [settle] at hr
  | ok d =>
    simp only [settle, Except.ok.injEq] at hr ⊢
    exact hr ▸ h d rfl

theorem length_feedSeekingMark {final : Bool} {before data : List UInt8} {cs : List Char}
    (hr : (feedSeekingMark final before data).result = .ok cs) :
    cs.length + (feedSeekingMark final before data).state.held.length ≤ data.length := by
  unfold feedSeekingMark at hr ⊢
  split at hr
  · cases hr
    simp_all
  · split at hr
    · rename_i h₁ h₂
      simp only [h₁, h₂, if_false, if_true, Bool.false_eq_true] at hr ⊢
      refine length_settle (fun d hd => ?_) hr
      have := Codec.length_decode hd
      simp only [List.length_drop] at this
      omega
    · rename_i h₁ h₂
      simp only [h₁, h₂, if_false, Bool.false_eq_true] at hr ⊢
      exact length_settle (fun d hd => Codec.length_decode hd) hr

theorem length_feedSeekingOrder {final : Bool} {before data : List UInt8} {cs : List Char}
    (hr : (feedSeekingOrder final before data).result = .ok cs) :
    cs.length + (feedSeekingOrder final before data).state.held.length ≤ data.length := by
  unfold feedSeekingOrder at hr ⊢
  cases hm : Utf16.markOrder? data with
  | some order =>
    simp only [hm] at hr ⊢
    cases hd : (Utf16.codec order).decodeFrom final data 2 (data.drop 2) with
    | error f => simp [hd] at hr
    | ok d =>
      simp only [hd, Except.ok.injEq] at hr ⊢
      have := Codec.length_decodeFrom hd
      simp only [List.length_drop] at this
      subst hr
      omega
  | none =>
    simp only [hm] at hr ⊢
    cases hd : (Utf16.codec .little).decode final data with
    | error f => simp [hd] at hr
    | ok d =>
      have := Codec.length_decode hd
      obtain ⟨chars, rest⟩ := d
      cases chars with
      | cons c chars => simp [hd] at hr
      | nil =>
        simp only [hd, Except.ok.injEq] at hr ⊢
        subst hr
        simpa using this

theorem length_feed {d : Decoder} {final : Bool} {piece : List UInt8} {cs : List Char}
    (h : (d.feed final piece).result = .ok cs) :
    cs.length + (d.feed final piece).state.held.length ≤ d.held.length + piece.length := by
  rw [← List.length_append]
  unfold feed at h ⊢
  cases hm : d.mode with
  | plain codec =>
    simp only [hm] at h ⊢
    exact length_settle (fun e he => Codec.length_decode he) h
  | seekingMark =>
    simp only [hm] at h ⊢
    exact length_feedSeekingMark h
  | seekingOrder =>
    simp only [hm] at h ⊢
    exact length_feedSeekingOrder h
  | refusing => simp [hm] at h

theorem length_held_settle {mode : DecoderMode} {before data : List UInt8}
    {e : Except DecodeFailure Decoded} (hb : before.length ≤ data.length)
    (h : ∀ d, e = .ok d → d.chars.length + d.rest.length ≤ data.length) :
    (settle mode before e).state.held.length ≤ data.length := by
  cases e with
  | error f => exact hb
  | ok d =>
    have := h d rfl
    simp only [settle]
    omega

theorem length_held_feed (d : Decoder) (final : Bool) (piece : List UInt8) :
    (d.feed final piece).state.held.length ≤ d.held.length + piece.length := by
  cases hr : (d.feed final piece).result with
  | ok cs =>
    have := length_feed hr
    omega
  | error f =>
    have hb : d.held.length ≤ (d.held ++ piece).length := by simp
    rw [← List.length_append]
    unfold feed at hr ⊢
    cases hm : d.mode with
    | plain codec =>
      simp only
      exact length_held_settle hb (fun e he => Codec.length_decode he)
    | seekingMark =>
      simp only [feedSeekingMark]
      split
      · exact Nat.le_refl _
      · split
        · refine length_held_settle hb (fun e he => ?_)
          have := Codec.length_decode he
          simp only [List.length_drop] at this
          omega
        · exact length_held_settle hb (fun e he => Codec.length_decode he)
    | seekingOrder =>
      simp only [hm, feedSeekingOrder] at hr ⊢
      split at hr
      · split at hr
        · simp at hr
        · simp_all
      · split at hr
        · simp at hr
        · simp_all
        · simp_all
    | refusing => exact hb

end Decoder
end RpalLexer
